/-
Blocks of a power of two of units, naturally aligned, and tilings by them.

A list of blocks tiles a zone if each unit of the zone lies in exactly one of them
and no other unit lies in any. A block can be split into two halves, and two
buddies can be joined; both keep a tiling.
-/
import Mathlib.Data.Nat.Bitwise
import Mathlib.Tactic.Ring

namespace BoardStack.Tiling

open List Nat

/-- The `2 ^ order` units from `start` on. -/
structure Block where
  start : Nat
  order : Nat
deriving DecidableEq

namespace Block

def covers (x : Nat) (b : Block) : Bool := b.start ≤ x ∧ x < b.start + 2 ^ b.order

def Aligned (b : Block) : Prop := 2 ^ b.order ∣ b.start

instance (b : Block) : Decidable b.Aligned := inferInstanceAs (Decidable (_ ∣ _))

/-- The other half of the block of the next order. -/
def buddy (b : Block) : Block := ⟨b.start ^^^ 2 ^ b.order, b.order⟩

/-- The block of the next order. -/
def parent (b : Block) : Block := ⟨b.start - b.start % 2 ^ (b.order + 1), b.order + 1⟩

end Block

-- == arithmetic

lemma xor_one (k : Nat) : k ^^^ 1 = if k % 2 = 0 then k + 1 else k - 1 := by
  split
  · next h => exact xor_one_of_even (even_iff.mpr h)
  · next h => exact xor_one_of_odd (odd_iff.mpr (by omega))

lemma mul_pow_xor (k o : Nat) :
    (2 ^ o * k) ^^^ 2 ^ o = if k % 2 = 0 then 2 ^ o * k + 2 ^ o else 2 ^ o * k - 2 ^ o := by
  have h : (2 ^ o * k) ^^^ 2 ^ o = 2 ^ o * (k ^^^ 1) := by
    have hs := shiftLeft_xor_distrib (a := k) (b := 1) (i := o)
    simp only [shiftLeft_eq, one_mul] at hs
    rw [mul_comm _ k, mul_comm _ (k ^^^ 1), hs]
  rw [h, xor_one]
  split
  · ring
  · rw [Nat.mul_sub, mul_one]

namespace Block

variable {b : Block}

lemma covers_iff {x : Nat} : covers x b = true ↔ b.start ≤ x ∧ x < b.start + 2 ^ b.order := by
  simp [covers]

lemma covers_start : covers b.start b = true := by
  have h := Nat.two_pow_pos b.order
  rw [covers_iff]
  omega

lemma halves (h : b.Aligned) :
    (b.buddy.start = b.start + 2 ^ b.order ∧ b.parent.start = b.start) ∨
      (b.buddy.start + 2 ^ b.order = b.start ∧ b.parent.start = b.buddy.start) := by
  obtain ⟨k, hk⟩ := h
  have hx := mul_pow_xor k b.order
  have hmod : b.start % 2 ^ (b.order + 1) = 2 ^ b.order * (k % 2) := by
    rw [hk, pow_succ, mul_mod_mul_left]
  rw [← hk] at hx
  simp only [buddy, parent]
  rcases mod_two_eq_zero_or_one k with h0 | h1
  · refine .inl ?_
    rw [hx, hmod, if_pos h0, h0]
    simp
  refine .inr ?_
  have hle : 2 ^ b.order ≤ b.start := by
    rw [hk]
    exact Nat.le_mul_of_pos_right _ (by omega)
  rw [hx, hmod, if_neg (by omega), h1]
  omega

lemma parent_aligned : b.parent.Aligned := dvd_sub_mod b.start

lemma buddy_buddy (b : Block) : b.buddy.buddy = b := by
  simp [buddy]

lemma buddy_ne (h : b.Aligned) : b.buddy ≠ b := by
  intro he
  have hpos := Nat.two_pow_pos b.order
  have hstart : b.buddy.start = b.start := by rw [he]
  rcases halves h with ⟨hb, -⟩ | ⟨hb, -⟩ <;> omega

lemma buddy_upper {p o : Nat} (h : 2 ^ (o + 1) ∣ p) : (⟨p + 2 ^ o, o⟩ : Block).buddy = ⟨p, o⟩ := by
  obtain ⟨k, rfl⟩ := h
  have hk : 2 ^ (o + 1) * k + 2 ^ o = 2 ^ o * (2 * k + 1) := by ring
  have hx := mul_pow_xor (2 * k + 1) o
  rw [← hk, if_neg (by omega), Nat.add_sub_cancel] at hx
  exact congrArg (Block.mk · o) hx

end Block

-- == tilings

/-- Each unit of the zone lies in exactly one of the blocks, and no other unit
in any. -/
structure Tiles (zone : Nat → Bool) (bs : List Block) : Prop where
  aligned : ∀ b ∈ bs, b.Aligned
  count : ∀ x, bs.countP (Block.covers x) = if zone x then 1 else 0

namespace Tiles

variable {zone : Nat → Bool} {bs bs' : List Block} {b : Block}

lemma perm (h : Tiles zone bs) (hp : bs.Perm bs') : Tiles zone bs' :=
  ⟨fun b hb => h.aligned b (hp.mem_iff.mpr hb), fun x => (hp.countP_eq _).symm.trans (h.count x)⟩

variable {c : Block}

lemma not_covers (h : Tiles zone (b :: bs)) (hc : c ∈ bs) : c.covers b.start = false := by
  have hcount := h.count b.start
  rw [countP_cons_of_pos Block.covers_start] at hcount
  have hzero : bs.countP (Block.covers b.start) = 0 := by split at hcount <;> omega
  simpa using countP_eq_zero.mp hzero c hc

lemma start_ne (h : Tiles zone (b :: bs)) (hc : c ∈ bs) : c.start ≠ b.start := by
  intro he
  have hn := h.not_covers hc
  simp [← he, Block.covers_start] at hn

lemma start_inj (h : Tiles zone bs) (hb : b ∈ bs) (hc : c ∈ bs)
    (he : c.start = b.start) : c = b := by
  rcases mem_cons.mp ((perm_cons_erase hb).mem_iff.mp hc) with hcb | hcb
  · exact hcb
  · exact absurd he ((h.perm (perm_cons_erase hb)).start_ne hcb)

lemma nodup (h : Tiles zone bs) : bs.Nodup := by
  rw [nodup_iff_count]
  intro b
  by_cases hb : b ∈ bs
  · have hp := h.perm (perm_cons_erase hb)
    have hnot : b ∉ bs.erase b := fun hm => hp.start_ne hm rfl
    rw [(perm_cons_erase hb).count_eq, count_cons_self, count_eq_zero.mpr hnot]
  · rw [count_eq_zero.mpr hb]
    exact Nat.zero_le 1

/-- Blocks that cover the same units can be exchanged for each other. -/
lemma exchange (as as' : List Block) (h : Tiles zone (as ++ bs)) (haligned : ∀ b ∈ as', b.Aligned)
    (hcount : ∀ x, as'.countP (Block.covers x) = as.countP (Block.covers x)) :
    Tiles zone (as' ++ bs) := by
  refine ⟨?_, ?_⟩
  · exact forall_mem_append.mpr ⟨haligned, fun b hb => h.aligned b (mem_append_right _ hb)⟩
  · intro x
    rw [countP_append, hcount x, ← countP_append]
    exact h.count x

lemma split {p o : Nat} (h : Tiles zone (⟨p, o + 1⟩ :: bs)) :
    Tiles zone (⟨p, o⟩ :: ⟨p + 2 ^ o, o⟩ :: bs) := by
  have hal : 2 ^ (o + 1) ∣ p := h.aligned ⟨p, o + 1⟩ (by simp)
  have hdvd : 2 ^ o ∣ p := (pow_dvd_pow 2 (le_succ o)).trans hal
  refine Tiles.exchange [⟨p, o + 1⟩] [⟨p, o⟩, ⟨p + 2 ^ o, o⟩] h ?_ ?_
  · simp [Block.Aligned, hdvd]
  · intro x
    simp only [countP_cons, countP_nil, Block.covers_iff, pow_succ]
    split <;> split <;> split <;> omega

lemma join (h : Tiles zone (b :: b.buddy :: bs)) : Tiles zone (b.parent :: bs) := by
  have hb := Block.halves (h.aligned b (by simp))
  refine Tiles.exchange [b, b.buddy] [b.parent] h ?_ ?_
  · simp [Block.parent_aligned]
  intro x
  have hpow : 2 ^ b.parent.order = 2 * 2 ^ b.order := by
    rw [show b.parent.order = b.order + 1 from rfl, pow_succ, mul_comm]
  have hbuddy : 2 ^ b.buddy.order = 2 ^ b.order := rfl
  simp only [countP_cons, countP_nil, Block.covers_iff, hpow, hbuddy]
  split <;> split <;> split <;> omega

end Tiles

end BoardStack.Tiling
