/-
Searching for a pattern.

`Ends p t k e` says that the first `k` elements of the pattern `p` are those of
the text `t` that end at `e`. A search from the left has, behind every element of
the text, the longest such `k`. Those that are shorter are the borders of the
pattern's first `k` elements, whatever the text is; so a table of the longest
borders is enough to find the next one, by falling back. The table of a pattern is
itself made by a search for the pattern in its own tail.

A search from the right end of the pattern compares it with the text that ends at
`s`; the first `g` comparisons succeed and the next one fails. How far it may jump
without passing over an occurrence follows from the element of the text that
differs, or from where the end of the pattern that was met is found again.
-/
import Mathlib.Tactic.Ring

namespace BoardStack.Base

open Function

universe u

variable {α : Type u} {p t : Nat → α} {c : α} {tbl : Nat → Nat} {m n e q k : Nat}

-- == endings

/-- The first `k` elements of `p` end at `e` in `t`. -/
def Ends (p t : Nat → α) (k e : Nat) : Prop := k ≤ e ∧ ∀ i, i < k → t (e - k + i) = p i

lemma ends_zero (p t : Nat → α) (e : Nat) : Ends p t 0 e :=
  ⟨Nat.zero_le e, fun _ hi => absurd hi (Nat.not_lt_zero _)⟩

/-- Only what stands before the end counts. -/
lemma Ends.congr {t' : Nat → α} (ht : ∀ i, i < e → t i = t' i) (h : Ends p t k e) :
    Ends p t' k e := by
  obtain ⟨hle, hall⟩ := h
  refine ⟨hle, fun i hi => ?_⟩
  rw [← ht _ (by omega)]
  exact hall i hi

lemma ends_succ : Ends p t (k + 1) (e + 1) ↔ Ends p t k e ∧ t e = p k := by
  constructor
  · rintro ⟨hle, hall⟩
    have hk : k ≤ e := by omega
    refine ⟨⟨hk, ?_⟩, ?_⟩
    · intro i hi
      have hi' := hall i (by omega)
      rwa [Nat.add_sub_add_right] at hi'
    · have hlast := hall k (by omega)
      rwa [Nat.add_sub_add_right, Nat.sub_add_cancel hk] at hlast
  · rintro ⟨⟨hle, hall⟩, hlast⟩
    refine ⟨by omega, ?_⟩
    intro i hi
    rw [Nat.add_sub_add_right]
    by_cases hik : i = k
    · rw [hik, Nat.sub_add_cancel hle, hlast]
    · exact hall i (by omega)

lemma Ends.iff_border (hq : Ends p t q e) (hk : k ≤ q) : Ends p t k e ↔ Ends p p k q := by
  have hsame : ∀ i, i < k → t (e - k + i) = p (q - k + i) := by
    intro i hi
    have hat := hq.2 (q - k + i) (by omega)
    have hle := hq.1
    rwa [show e - q + (q - k + i) = e - k + i by omega] at hat
  constructor
  · intro h
    refine ⟨hk, fun i hi => ?_⟩
    rw [← hsame i hi, h.2 i hi]
  · intro h
    refine ⟨le_trans hk hq.1, fun i hi => ?_⟩
    rw [hsame i hi, h.2 i hi]

/-- The longest ending, of at most `m` elements. -/
structure Longest (p t : Nat → α) (m e q : Nat) : Prop where
  ends : Ends p t q e
  most : ∀ k, k ≤ m → Ends p t k e → k ≤ q

lemma longest_zero (p t : Nat → α) (m : Nat) : Longest p t m 0 0 :=
  ⟨ends_zero p t 0, fun _ _ h => h.1⟩

/-- A table of the longest borders of the first `n` elements. -/
def Borders (p : Nat → α) (tbl : Nat → Nat) (n : Nat) : Prop :=
  ∀ j, 0 < j → j ≤ n → tbl (j - 1) < j ∧ Ends p p (tbl (j - 1)) j ∧
    ∀ k, k < j → Ends p p k j → k ≤ tbl (j - 1)

variable {s : Nat → α}

lemma ends_tail (hs : ∀ i, s i = p (i + 1)) (hk : k ≤ q) : Ends p s k q ↔ Ends p p k (q + 1) := by
  have hsame : ∀ i, s (q - k + i) = p (q + 1 - k + i) := by
    intro i
    rw [hs]
    congr 1
    omega
  constructor
  · rintro ⟨-, hall⟩
    exact ⟨by omega, fun i hi => by rw [← hsame, hall i hi]⟩
  · rintro ⟨-, hall⟩
    exact ⟨hk, fun i hi => by rw [hsame, hall i hi]⟩

lemma Borders.extend (hs : ∀ i, s i = p (i + 1))
    (hb : Borders p tbl q) (h : Longest p s m q k) (hm : q ≤ m) :
    Borders p (update tbl q k) (q + 1) := by
  intro j hpos hj
  by_cases hlast : j = q + 1
  · subst hlast
    rw [Nat.add_sub_cancel, update_self]
    refine ⟨Nat.lt_succ_of_le h.ends.1, (ends_tail hs h.ends.1).mp h.ends, ?_⟩
    intro k' hk' hends
    exact h.most k' (by omega) ((ends_tail hs (by omega)).mpr hends)
  · rw [update_of_ne (by omega)]
    exact hb j hpos (by omega)

-- == falling back

variable [DecidableEq α]

/-- Fall back while the next element of the pattern is not `c`. -/
def fallBack (p : Nat → α) (tbl : Nat → Nat) (c : α) : Nat → Nat → Nat
  | 0, q => q
  | fuel + 1, q =>
    if q > 0 ∧ p q ≠ c then fallBack p tbl c fuel (tbl (q - 1)) else q

/-- Falling back finds the longest ending that `c` continues, if there is one. -/
lemma fallBack_spec {fuel : Nat} (hb : Borders p tbl n) (hq : Ends p t q e)
    (hn : q ≤ n) (hfuel : q ≤ fuel) :
    Ends p t (fallBack p tbl c fuel q) e ∧ fallBack p tbl c fuel q ≤ q ∧
    (fallBack p tbl c fuel q = 0 ∨ p (fallBack p tbl c fuel q) = c) ∧
    ∀ k, k ≤ q → Ends p t k e → p k = c → k ≤ fallBack p tbl c fuel q := by
  induction fuel generalizing q with
  | zero =>
    obtain rfl : q = 0 := by omega
    exact ⟨hq, le_rfl, .inl rfl, fun k hk _ _ => hk⟩
  | succ fuel ih =>
    unfold fallBack
    by_cases hback : q > 0 ∧ p q ≠ c
    · rw [if_pos hback]
      obtain ⟨hlt, hborder, hmost⟩ := hb q hback.1 hn
      have hshort : Ends p t (tbl (q - 1)) e := (hq.iff_border (by omega)).mpr hborder
      obtain ⟨hends, hle, hnext, hlongest⟩ := ih hshort (by omega) (by omega)
      refine ⟨hends, by omega, hnext, fun k hk hkends hkc => ?_⟩
      -- the one that is given up is not continued
      have hne : k ≠ q := by
        rintro rfl
        exact hback.2 hkc
      have hkq : k < q := by omega
      exact hlongest k (hmost k hkq ((hq.iff_border hk).mp hkends)) hkends hkc
    · rw [if_neg hback]
      refine ⟨hq, le_rfl, ?_, fun k hk _ _ => hk⟩
      by_cases hzero : q = 0
      · exact .inl hzero
      · exact .inr (not_not.mp fun hne => hback ⟨by omega, hne⟩)

/-- The next state of a search. -/
def advance (p : Nat → α) (tbl : Nat → Nat) (c : α) (q : Nat) : Nat :=
  let q := fallBack p tbl c q q
  if p q = c then q + 1 else q

lemma Longest.advance (h : Longest p t m e q) (hb : Borders p tbl n)
    (hn : q ≤ n) : Longest p t m (e + 1) (advance p tbl (t e) q) := by
  obtain ⟨hends, -, hnext, hmost⟩ := fallBack_spec (c := t e) hb h.ends hn le_rfl
  unfold Base.advance
  generalize fallBack p tbl (t e) q q = r at *
  have hcontinued : ∀ k, k + 1 ≤ m → Ends p t (k + 1) (e + 1) → k ≤ r ∧ p k = t e := by
    intro k hk hk'
    obtain ⟨hkends, hkc⟩ := ends_succ.mp hk'
    exact ⟨hmost k (h.most k (by omega) hkends) hkends hkc.symm, hkc.symm⟩
  by_cases hr : p r = t e
  · rw [if_pos hr]
    refine ⟨ends_succ.mpr ⟨hends, hr.symm⟩, fun k hk hkends => ?_⟩
    cases k with
    | zero => exact Nat.zero_le _
    | succ k => exact Nat.succ_le_succ (hcontinued k hk hkends).1
  rw [if_neg hr]
  obtain rfl : r = 0 := hnext.resolve_right hr
  refine ⟨ends_zero p t _, fun k hk hkends => ?_⟩
  cases k with
  | zero => exact le_rfl
  | succ k =>
    obtain ⟨hle, hkc⟩ := hcontinued k hk hkends
    obtain rfl : k = 0 := by omega
    exact absurd hkc hr

lemma advance_le (h : Ends p t q e) (hb : Borders p tbl n) (hn : q ≤ n)
    (c : α) : advance p tbl c q ≤ q + 1 := by
  obtain ⟨-, hle, -⟩ := fallBack_spec (c := c) hb h hn le_rfl
  unfold advance
  dsimp only
  split_ifs <;> omega

-- == the table

/-- Make the table from element `q` on, `turns` elements more. -/
def prefixLoop (p : Nat → α) : Nat → Nat → Nat → (Nat → Nat) → Nat → Nat
  | 0, _, _, tbl => tbl
  | turns + 1, q, k, tbl =>
    let k := advance p tbl (p q) k
    prefixLoop p turns (q + 1) k (update tbl q k)

lemma prefixLoop_borders (hs : ∀ i, s i = p (i + 1))
    (turns : Nat) (hb : Borders p tbl (q + 1)) (h : Longest p s m q k) (hm : q + turns ≤ m) :
    Borders p (prefixLoop p turns (q + 1) k tbl) (q + 1 + turns) := by
  induction turns generalizing q k tbl with
  | zero => exact hb
  | succ turns ih =>
    have hle := h.ends.1
    have hnext : Longest p s m (q + 1) (advance p tbl (p (q + 1)) k) := by
      have hadvance := h.advance hb (by omega)
      rwa [hs] at hadvance
    rw [show q + 1 + (turns + 1) = q + 1 + 1 + turns by omega]
    exact ih (hb.extend hs hnext (by omega)) hnext (by omega)

lemma prefixLoop_correct (hzero : tbl 0 = 0) (turns : Nat) :
    Borders p (prefixLoop p turns 1 0 tbl) (turns + 1) := by
  have hfirst : Borders p tbl (0 + 1) := by
    intro j hpos hj
    obtain rfl : j = 1 := by omega
    rw [Nat.sub_self, hzero]
    exact ⟨Nat.one_pos, ends_zero p p 1, fun k hk _ => by omega⟩
  have hall := prefixLoop_borders (s := fun i => p (i + 1)) (m := turns)
    (fun _ => rfl) turns hfirst (longest_zero p _ turns) (by omega)
  rwa [zero_add, add_comm 1] at hall

variable {α : Type u} {p t : Nat → α} {m e g k s b : Nat}

lemma Ends.from_end (h : Ends p t m (e + 1)) (hk : k < m) : t (e - k) = p (m - 1 - k) := by
  have hle := h.1
  have hat := h.2 (m - 1 - k) (by omega)
  rwa [show e + 1 - m + (m - 1 - k) = e - k by omega] at hat

/-- The text up to `s` has the last `g` elements of the pattern. -/
def Met (p t : Nat → α) (m s g : Nat) : Prop := ∀ k, k < g → t (s - k) = p (m - 1 - k)

/-- Where the pattern does not have the element of the text, it is moved on. -/
lemma differs_jump (hb : ∀ x, x + 1 < m → p x = t (s - g) → b ≤ m - 1 - x)
    (hm : b ≤ m) (h : Ends p t m (e + 1)) (hlt : s < e) :
    s + b ≤ e + g := by
  by_cases hinside : g + (e - s) < m
  · have hat := h.from_end hinside
    rw [show e - (g + (e - s)) = s - g by omega] at hat
    have hle := hb (m - 1 - (g + (e - s))) (by omega) hat.symm
    omega
  · omega

/-- The last `g` elements are found again, `d` before, as far as the pattern
goes, and there is another element before them. -/
def Again (p : Nat → α) (m g d : Nat) : Prop :=
  (∀ k, k < g → d + k < m → p (m - 1 - (d + k)) = p (m - 1 - k)) ∧
    (d + g < m → p (m - 1 - (d + g)) ≠ p (m - 1 - g))

/-- The end of the pattern that was met is moved to where it is again. -/
lemma again_jump (hmet : Met p t m s g)
    (hdiffers : t (s - g) ≠ p (m - 1 - g)) (hb : ∀ d, 0 < d → d < m → Again p m g d → b ≤ d)
    (hm : b ≤ m) (h : Ends p t m (e + 1)) (hlt : s < e) : s + b ≤ e := by
  by_cases hinside : e - s < m
  · have hat : ∀ k, e - s + k < m → t (s - k) = p (m - 1 - (e - s + k)) := by
      intro k hk
      rw [← h.from_end hk]
      congr 1
      omega
    have hagain : Again p m g (e - s) := by
      refine ⟨fun k hk hkm => ?_, fun hgm heq => ?_⟩
      · rw [← hat k hkm, hmet k hk]
      · rw [← hat g hgm] at heq
        exact hdiffers heq
    have hle := hb (e - s) (by omega) hinside hagain
    omega
  · omega

end BoardStack.Base
