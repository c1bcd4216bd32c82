/-
Lists of segments that lie side by side and show a function.

A segment has an offset, a size and a value. `Shows g a l b` says that the
segments of `l` fill the range from `a` to `b` in order, none of them empty,
and that each one's value is what `g` has at every point of it. Cutting a
list, joining two, and changing the function elsewhere are what a data
structure of segments is updated by.

`Apart l` is the weaker statement that the segments of `l` are in order and do
not overlap. Such a list fills a range as soon as its sizes add up to the
length of the range.
-/
import Mathlib.Data.List.Basic
import Mathlib.Tactic.Ring

namespace BoardStack.Base

open List

variable {S V : Type}

/-- How the offset, size and value of a segment are read. -/
structure Segment (S V : Type) where
  ofs : S → Nat
  size : S → Nat
  val : S → V

namespace Segment

variable (k : Segment S V)

def stop (x : S) : Nat := k.ofs x + k.size x

/-- The segments fill a range, and show a function there. -/
def Shows (g : Nat → V) : Nat → List S → Nat → Prop
  | a, [], b => a = b
  | a, x :: l, b =>
    k.ofs x = a ∧ 0 < k.size x ∧ (∀ i, a ≤ i → i < a + k.size x → g i = k.val x) ∧
      Shows g (a + k.size x) l b

variable {k} {g h : Nat → V} {a b c : Nat} {l l1 l2 : List S} {x : S}

@[simp] lemma shows_nil : k.Shows g a [] b ↔ a = b := Iff.rfl

lemma shows_cons : k.Shows g a (x :: l) b ↔ k.ofs x = a ∧ 0 < k.size x ∧
      (∀ i, a ≤ i → i < a + k.size x → g i = k.val x) ∧
      k.Shows g (a + k.size x) l b := Iff.rfl

lemma shows_singleton : k.Shows g a [x] b ↔ k.ofs x = a ∧ 0 < k.size x ∧ a + k.size x = b ∧
      ∀ i, a ≤ i → i < b → g i = k.val x := by
  rw [shows_cons, shows_nil]
  constructor
  · rintro ⟨hofs, hsize, hval, hstop⟩
    exact ⟨hofs, hsize, hstop, fun i hlo hhi => hval i hlo (by omega)⟩
  · rintro ⟨hofs, hsize, hstop, hval⟩
    exact ⟨hofs, hsize, fun i hlo hhi => hval i hlo (by omega), hstop⟩

lemma shows_append : k.Shows g a (l1 ++ l2) c ↔ ∃ b, k.Shows g a l1 b ∧ k.Shows g b l2 c := by
  induction l1 generalizing a with
  | nil => simp
  | cons x l1 ih =>
    rw [cons_append, shows_cons, ih]
    constructor
    · rintro ⟨hofs, hsize, hval, b, h1, h2⟩
      exact ⟨b, ⟨hofs, hsize, hval, h1⟩, h2⟩
    · rintro ⟨b, ⟨hofs, hsize, hval, h1⟩, h2⟩
      exact ⟨hofs, hsize, hval, b, h1, h2⟩

lemma Shows.join (h1 : k.Shows g a (l1 ++ [x]) b)
    (h2 : k.Shows g b l2 c) : k.Shows g a (l1 ++ x :: l2) c := by
  rw [← singleton_append, ← append_assoc]
  exact shows_append.mpr ⟨b, h1, h2⟩

lemma Shows.length_le (h : k.Shows g a l b) : a + l.length ≤ b := by
  induction l generalizing a with
  | nil => exact le_of_eq h
  | cons x l ih =>
    obtain ⟨-, hsize, -, hrest⟩ := shows_cons.mp h
    have := ih hrest
    rw [length_cons]
    omega

lemma Shows.le (h : k.Shows g a l b) : a ≤ b := by
  have := h.length_le
  omega

lemma Shows.congr {h' : Nat → V} (h : k.Shows g a l b)
    (heq : ∀ i, a ≤ i → i < b → g i = h' i) : k.Shows h' a l b := by
  induction l generalizing a with
  | nil => exact h
  | cons x l ih =>
    obtain ⟨hofs, hsize, hval, hrest⟩ := shows_cons.mp h
    have hle := hrest.le
    refine ⟨hofs, hsize, fun i hlo hhi => ?_, ih hrest fun i hlo hhi =>
      heq i (by omega) hhi⟩
    rw [← heq i hlo (by omega), hval i hlo hhi]

lemma Shows.mem_range (h : k.Shows g a l b) (hx : x ∈ l) :
    a ≤ k.ofs x ∧ 0 < k.size x ∧ k.stop x ≤ b := by
  induction l generalizing a with
  | nil => cases hx
  | cons y l ih =>
    obtain ⟨hofs, hsize, -, hrest⟩ := shows_cons.mp h
    have hle := hrest.le
    unfold stop at ih ⊢
    rcases mem_cons.mp hx with rfl | hx
    · omega
    · have := ih hrest hx
      omega

lemma Shows.sides (h : k.Shows g a (l1 ++ x :: l2) b) :
    (∀ y ∈ l1, k.stop y ≤ k.ofs x) ∧ ∀ y ∈ l2, k.stop x ≤ k.ofs y := by
  obtain ⟨c, h1, h2⟩ := shows_append.mp h
  obtain ⟨hofs, -, -, hrest⟩ := shows_cons.mp h2
  refine ⟨fun y hy => ?_, fun y hy => ?_⟩
  · have hy := h1.mem_range hy
    omega
  · have hy := hrest.mem_range hy
    unfold stop
    omega

lemma Shows.congr_segment {k' : Segment S V} (h : k.Shows g a l b)
    (hofs : ∀ x ∈ l, k'.ofs x = k.ofs x) (hsize : ∀ x ∈ l, k'.size x = k.size x)
    (hval : ∀ x ∈ l, k'.val x = k.val x) : k'.Shows g a l b := by
  induction l generalizing a with
  | nil => exact h
  | cons x l ih =>
    obtain ⟨hx, hpos, hg, hrest⟩ := shows_cons.mp h
    rw [shows_cons, hofs x mem_cons_self, hsize x mem_cons_self, hval x mem_cons_self]
    exact ⟨hx, hpos, hg, ih hrest (fun y hy => hofs y (mem_cons_of_mem x hy))
      (fun y hy => hsize y (mem_cons_of_mem x hy)) (fun y hy => hval y (mem_cons_of_mem x hy))⟩

lemma Shows.stop_eq (h : k.Shows g a (l ++ [x]) b) : k.stop x = b := by
  obtain ⟨c, -, hx⟩ := shows_append.mp h
  obtain ⟨hofs, -, hstop, -⟩ := shows_singleton.mp hx
  unfold stop
  omega

lemma Shows.exists_at (h : k.Shows g a l b) {i : Nat} (hlo : a ≤ i)
    (hhi : i < b) : ∃ x ∈ l, k.ofs x ≤ i ∧ i < k.stop x := by
  induction l generalizing a with
  | nil =>
    have hab := shows_nil.mp h
    omega
  | cons x l ih =>
    obtain ⟨hofs, -, -, hrest⟩ := shows_cons.mp h
    by_cases hi : i < a + k.size x
    · refine ⟨x, mem_cons_self, ?_⟩
      unfold stop
      omega
    · obtain ⟨y, hy, hin⟩ := ih hrest (not_lt.mp hi)
      exact ⟨y, mem_cons_of_mem x hy, hin⟩

/-- A segment that does not end the range is followed by another one. -/
lemma Shows.exists_next (h : k.Shows g a l b) (hx : x ∈ l)
    (hlt : k.stop x < b) : ∃ y ∈ l, k.ofs y = k.stop x := by
  obtain ⟨l1, l2, rfl⟩ := append_of_mem hx
  obtain ⟨c, -, hright⟩ := shows_append.mp h
  obtain ⟨hofs, -, -, hrest⟩ := shows_cons.mp hright
  cases l2 with
  | nil =>
    have hb := shows_nil.mp hrest
    unfold stop at hlt
    omega
  | cons y l2 =>
    refine ⟨y, by simp, ?_⟩
    rw [(shows_cons.mp hrest).1, stop, hofs]

-- == disjoint segments

/-- In order and without overlap. -/
def Apart (k : Segment S V) (l : List S) : Prop := l.Pairwise fun x y => k.stop x ≤ k.ofs y

lemma Shows.apart (h : k.Shows g a l b) : k.Apart l := by
  induction l generalizing a with
  | nil => exact .nil
  | cons x l ih =>
    obtain ⟨hofs, -, -, hrest⟩ := shows_cons.mp h
    refine .cons (fun y hy => ?_) (ih hrest)
    have hy := (hrest.mem_range hy).1
    unfold stop
    omega

lemma Apart.eq_of_overlap (h : k.Apart l) {y : S} (hx : x ∈ l) (hy : y ∈ l)
    (hxy : k.ofs x < k.stop y) (hyx : k.ofs y < k.stop x) : x = y := by
  induction l with
  | nil => cases hx
  | cons z l ih =>
    obtain ⟨hz, hl⟩ := pairwise_cons.mp h
    rcases mem_cons.mp hx with hxz | hxl
    · rcases mem_cons.mp hy with hyz | hyl
      · rw [hxz, hyz]
      · have := hz y hyl
        rw [hxz] at hyx
        omega
    · rcases mem_cons.mp hy with hyz | hyl
      · have := hz x hxl
        rw [hyz] at hxy
        omega
      · exact ih hl hxl hyl

lemma Apart.sum_le (h : k.Apart l) (hlo : ∀ x ∈ l, a ≤ k.ofs x)
    (hhi : ∀ x ∈ l, k.stop x ≤ b) (hab : a ≤ b) :
    a + (l.map k.size).sum ≤ b := by
  induction l generalizing a with
  | nil => exact hab
  | cons x l ih =>
    obtain ⟨hx, hl⟩ := pairwise_cons.mp h
    have hrest := ih hl hx (fun y hy => hhi y (mem_cons_of_mem x hy)) (hhi x mem_cons_self)
    have hofs := hlo x mem_cons_self
    rw [map_cons, sum_cons]
    unfold stop at hrest
    omega

/-- Sizes that add up leave no hole. -/
theorem Apart.shows_of_sum (h : k.Apart l) (hpos : ∀ x ∈ l, 0 < k.size x)
    (hlo : ∀ x ∈ l, a ≤ k.ofs x) (hhi : ∀ x ∈ l, k.stop x ≤ b) (hval : ∀ x ∈ l, ∀ i, g i = k.val x)
    (hsum : a + (l.map k.size).sum = b) : k.Shows g a l b := by
  induction l generalizing a with
  | nil => exact hsum
  | cons x l ih =>
    obtain ⟨hx, hl⟩ := pairwise_cons.mp h
    have hhi' : ∀ y ∈ l, k.stop y ≤ b := fun y hy =>
      hhi y (mem_cons_of_mem x hy)
    -- the rest fits behind the first segment, so that one begins at `a`
    have hrest := Apart.sum_le hl hx hhi' (hhi x mem_cons_self)
    have hofs := hlo x mem_cons_self
    rw [map_cons, sum_cons] at hsum
    unfold stop at hrest
    refine ⟨by omega, hpos x mem_cons_self, fun i _ _ => hval x mem_cons_self i,
      ih hl (fun y hy => hpos y (mem_cons_of_mem x hy)) (fun y hy => ?_) hhi'
        (fun y hy => hval y (mem_cons_of_mem x hy)) (by omega)⟩
    have := hx y hy
    unfold stop at this
    omega

/-- A list of disjoint segments that has every segment of a list that fills
the range is that list, segment by segment. -/
lemma Apart.forall₂_of_shows {T W : Type} {k' : Segment T W} {g' : Nat → W} {l' : List T}
    {R : S → T → Prop} (h : k.Apart l) (hpos : ∀ x ∈ l, 0 < k.size x) (hlo : ∀ x ∈ l, a ≤ k.ofs x)
    (hhi : ∀ x ∈ l, k.stop x ≤ b) (h' : k'.Shows g' a l' b)
    (hR : ∀ x y, R x y → k.ofs x = k'.ofs y ∧ k.size x = k'.size y)
    (hall : ∀ y ∈ l', ∃ x ∈ l, R x y) : List.Forall₂ R l l' := by
  induction l' generalizing a l with
  | nil =>
    have hab := shows_nil.mp h'
    cases l with
    | nil => exact .nil
    | cons x l =>
      have := hpos x mem_cons_self
      have := hlo x mem_cons_self
      have := hhi x mem_cons_self
      unfold stop at this
      omega
  | cons y l' ih =>
    obtain ⟨hofs, hsize, -, hrest⟩ := shows_cons.mp h'
    obtain ⟨x, hx, hxy⟩ := hall y mem_cons_self
    obtain ⟨hxofs, hxsize⟩ := hR x y hxy
    cases l with
    | nil => cases hx
    | cons z l =>
      obtain ⟨hz, hl⟩ := pairwise_cons.mp h
      -- nothing fits in front of the segment that begins at `a`
      have hzx : x = z := by
        rcases mem_cons.mp hx with hx | hx
        · exact hx
        have := hz x hx
        have := hpos z mem_cons_self
        have := hlo z mem_cons_self
        unfold stop at *
        omega
      subst hzx
      refine .cons hxy (ih hl (fun w hw => hpos w (mem_cons_of_mem x hw))
        (fun w hw => ?_) (fun w hw => hhi w (mem_cons_of_mem x hw)) hrest fun w hw => ?_)
      · have := hz w hw
        unfold stop at this
        omega
      obtain ⟨v, hv, hvw⟩ := hall w (mem_cons_of_mem y hw)
      rcases mem_cons.mp hv with rfl | hv
      · have := (hR v w hvw).1
        have := (hrest.mem_range hw).1
        omega
      · exact ⟨v, hv, hvw⟩

end Segment

end BoardStack.Base
