/-
The free list of a page as a list of blocks.

`Holds mem e l` says that the blocks of `l` are linked in memory, one after the
other, and that the last one points to `e`; so a part of the list is such a list
too, and a block can be put in, changed or taken out by writing the block in
front of it. The code reads a block back as it was written (`Enc.units`,
`Enc.next_eq`) and writes inside it (`setSlob_frame`).
-/
import BoardStack.Slob.Basic
import Mathlib.Data.List.Basic

namespace BoardStack.Slob

open Base Function List

variable {mem mem' : Mem} {s n next e i x : Nat} {l l1 l2 mid : List Block}

lemma idx_eq {x : Int} (hlo : -2 ^ 15 ≤ x) (hhi : x < 2 ^ 15) : idx x = x := signed_eq hlo hhi

lemma pageUnits_lt : pageUnits < 2 ^ 15 := by decide

lemma pageStart_eq (h : s < pageUnits) : pageStart s = 0 := by
  unfold pageStart
  rw [Nat.mod_eq_of_lt h, Nat.sub_self]

-- == blocks

/-- A free block of `n` units at `s`, as it stands in memory. -/
def Enc (mem : Mem) (s n next : Nat) : Prop :=
  if n = 1 then mem s = -(next : Int) else mem s = n ∧ mem (s + 1) = next

lemma Enc.units (h : Enc mem s n next) (hn : 1 ≤ n) : slobUnits mem s = n := by
  unfold Enc at h
  unfold slobUnits
  split_ifs at h ⊢ <;> omega

lemma Enc.next_eq (h : Enc mem s n next) (hn : 1 ≤ n) (hs : s < pageUnits)
    (hpos : 0 < next) (hle : next ≤ pageUnits) : slobNext mem s = next := by
  have hlt := pageUnits_lt
  unfold Enc at h
  unfold slobNext
  dsimp only
  rw [pageStart_eq hs]
  split_ifs at h with hone
  · rw [h, if_pos (by omega), Int.neg_neg, idx_eq (by omega) (by omega)]
    omega
  · omega

lemma enc_setSlob (mem : Mem) (hs : s < pageUnits) (hn : n ≤ pageUnits)
    (hpos : 1 ≤ n) (hle : next ≤ pageUnits) :
    Enc (setSlob mem s n next) s n next := by
  have hlt := pageUnits_lt
  have hoff : idx ((next : Int) - pageStart s) = next := by
    rw [pageStart_eq hs, idx_eq (by omega) (by omega)]
    omega
  have hsize : idx (n : Int) = n := idx_eq (by omega) (by omega)
  have hneg : idx (-(next : Int)) = -(next : Int) := idx_eq (by omega) (by omega)
  unfold Enc setSlob
  rw [hoff, hsize, hneg]
  by_cases hone : n = 1
  · rw [if_pos hone, if_neg (by omega), update_self]
  · rw [if_neg hone, if_pos (by omega), update_self, update_of_ne (by omega), update_self]
    exact ⟨rfl, rfl⟩

lemma setSlob_frame (h : n ≤ pageUnits ∧ 1 ≤ n ∧ (i < s ∨ s + n ≤ i)) :
    setSlob mem s n next i = mem i := by
  obtain ⟨hn, hpos, hi⟩ := h
  have hlt := pageUnits_lt
  have hsize : idx (n : Int) = n := idx_eq (by omega) (by omega)
  unfold setSlob
  rw [hsize]
  split_ifs
  · rw [update_of_ne (by omega), update_of_ne (by omega)]
  · rw [update_of_ne (by omega)]

lemma Enc.congr (h : Enc mem s n next) (hpos : 1 ≤ n)
    (hsame : ∀ i, s ≤ i → i < s + n → mem' i = mem i) : Enc mem' s n next := by
  unfold Enc at h ⊢
  split_ifs at h ⊢
  · rw [hsame s (by omega) (by omega)]
    exact h
  · rw [hsame s (by omega) (by omega), hsame (s + 1) (by omega) (by omega)]
    exact h

-- == lists

/-- The start of a list that is followed by `e`. -/
def first (e : Nat) : List Block → Nat
  | [] => e
  | a :: _ => a.1

/-- The blocks stand in memory, linked one to the next. -/
def Holds (mem : Mem) (e : Nat) : List Block → Prop
  | [] => True
  | a :: rest => Enc mem a.1 a.2 (first e rest) ∧ Holds mem e rest

/-- Blocks in a page, in the order of their addresses. -/
structure Layout (l : List Block) : Prop where
  pos : ∀ a ∈ l, 1 ≤ a.2
  le : ∀ a ∈ l, a.1 + a.2 ≤ pageUnits
  ordered : l.Pairwise fun a b => a.1 + a.2 ≤ b.1

def Apart (l : List Block) : Prop := l.Pairwise fun a b => a.1 + a.2 < b.1

lemma first_append : first e (l1 ++ l2) = first (first e l2) l1 := by
  cases l1 <;> rfl

lemma holds_append : Holds mem e (l1 ++ l2) ↔ Holds mem (first e l2) l1 ∧ Holds mem e l2 := by
  induction l1 with
  | nil => exact ⟨fun h => ⟨trivial, h⟩, fun h => h.2⟩
  | cons a l1 ih =>
    rw [cons_append, Holds, Holds, ih, first_append, and_assoc]

lemma Holds.congr (h : Holds mem e l) (hpos : ∀ a ∈ l, 1 ≤ a.2)
    (hsame : ∀ a ∈ l, ∀ i, a.1 ≤ i → i < a.1 + a.2 → mem' i = mem i) :
    Holds mem' e l := by
  induction l with
  | nil => trivial
  | cons a l ih =>
    exact ⟨h.1.congr (hpos a mem_cons_self) (hsame a mem_cons_self),
      ih h.2 (fun b hb => hpos b (mem_cons_of_mem a hb)) fun b hb => hsame b (mem_cons_of_mem a hb)⟩

lemma Layout.sublist (h : Layout l) (hs : l1.Sublist l) : Layout l1 :=
  ⟨fun a ha => h.pos a (hs.subset ha), fun a ha => h.le a (hs.subset ha), h.ordered.sublist hs⟩

lemma Layout.left (h : Layout (l1 ++ l2)) : Layout l1 := h.sublist (sublist_append_left l1 l2)

lemma Layout.right (h : Layout (l1 ++ l2)) : Layout l2 := h.sublist (sublist_append_right l1 l2)

lemma le_first (he : x ≤ e) (h : ∀ a ∈ l, x ≤ a.1) : x ≤ first e l := by
  cases l with
  | nil => exact he
  | cons a l => exact h a mem_cons_self

lemma Layout.first_le (h : Layout l) : first pageUnits l ≤ pageUnits := by
  cases l with
  | nil => exact le_rfl
  | cons a l => exact (Nat.le_add_right _ _).trans (h.le a mem_cons_self)

lemma Layout.around (h : Layout (l1 ++ (s, n) :: l2)) :
    1 ≤ n ∧ s + n ≤ pageUnits ∧ (∀ a ∈ l1, a.1 + a.2 ≤ s) ∧
      (∀ a ∈ l2, s + n ≤ a.1) ∧ s + n ≤ first pageUnits l2 ∧
      first pageUnits l2 ≤ pageUnits := by
  have hmem : (s, n) ∈ l1 ++ (s, n) :: l2 := by simp
  have hord := h.ordered
  rw [pairwise_append, pairwise_cons] at hord
  have hle := h.le _ hmem
  refine ⟨h.pos _ hmem, hle, ?_, hord.2.1.1, ?_, ?_⟩
  · intro a ha
    exact hord.2.2 a ha _ mem_cons_self
  · exact le_first hle hord.2.1.1
  · exact (h.right.sublist (sublist_cons_self _ _)).first_le

lemma Apart.ordered (h : Apart l) : l.Pairwise fun a b => a.1 + a.2 ≤ b.1 :=
  List.Pairwise.imp (fun hab => le_of_lt hab) h

lemma sum_le (h : l.Pairwise fun a b => a.1 + a.2 ≤ b.1) :
    ∀ lo hi, lo ≤ hi → (∀ a ∈ l, lo ≤ a.1 ∧ a.1 + a.2 ≤ hi) → lo + (l.map Prod.snd).sum ≤ hi := by
  induction l with
  | nil =>
    intro lo hi hle _
    simpa using hle
  | cons a l ih =>
    intro lo hi _ hin
    rw [pairwise_cons] at h
    have ha := hin a mem_cons_self
    have hrest := ih h.2 (a.1 + a.2) hi ha.2 fun b hb =>
      ⟨h.1 b hb, (hin b (mem_cons_of_mem a hb)).2⟩
    rw [map_cons, sum_cons]
    omega

lemma Layout.sum_le (h : Layout l) : (l.map Prod.snd).sum ≤ pageUnits := by
  have := Slob.sum_le h.ordered 0 pageUnits (Nat.zero_le _) fun a ha =>
    ⟨Nat.zero_le _, h.le a ha⟩
  omega

lemma length_le_sum (h : ∀ a ∈ l, 1 ≤ a.2) : l.length ≤ (l.map Prod.snd).sum := by
  induction l with
  | nil => exact le_rfl
  | cons a l ih =>
    have ha := h a mem_cons_self
    have hl := ih fun b hb => h b (mem_cons_of_mem a hb)
    rw [map_cons, sum_cons, length_cons]
    omega

lemma sum_eq_zero_iff (hl : Layout l) : (l.map Prod.snd).sum = 0 ↔ l = [] := by
  have hlen := length_le_sum hl.pos
  constructor
  · intro h
    exact eq_nil_of_length_eq_zero (by omega)
  · rintro rfl
    rfl

lemma Layout.length_le (h : Layout l) : l.length ≤ pageUnits :=
  le_trans (length_le_sum h.pos) h.sum_le

def part (s n : Nat) : List Block := if n = 0 then [] else [(s, n)]

lemma part_pos (h : 1 ≤ n) : part s n = [(s, n)] := if_neg (by omega)

lemma mem_part {b : Block} (hb : b ∈ part s n) : b = (s, n) ∧ 1 ≤ n := by
  unfold part at hb
  split_ifs at hb with hzero
  · exact absurd hb not_mem_nil
  · exact ⟨mem_singleton.mp hb, by omega⟩

lemma sum_part : ((part s n).map Prod.snd).sum = n := by
  unfold part
  split_ifs with hzero
  · exact hzero.symm
  · simp

lemma pairwise_part (R : Block → Block → Prop) : (part s n).Pairwise R := by
  unfold part
  split_ifs
  · exact .nil
  · exact pairwise_singleton _ _

/-- A block is replaced by two parts of it with a gap of at least `gap`. -/
lemma pairwise_cut {d t k : Nat} (gap : Nat)
    (h : (l1 ++ (s, n) :: l2).Pairwise fun a b => a.1 + a.2 + gap ≤ b.1)
    (hd : s + d + gap ≤ t) (ht : t + k ≤ s + n) :
    (l1 ++ ((part s d ++ part t k) ++ l2)).Pairwise fun a b => a.1 + a.2 + gap ≤ b.1 := by
  have hin : ∀ a ∈ part s d ++ part t k, s ≤ a.1 ∧ a.1 + a.2 ≤ s + n := by
    refine forall_mem_append.mpr ⟨?_, ?_⟩ <;> intro a ha <;> obtain ⟨rfl, -⟩ := mem_part ha <;>
      dsimp only <;> omega
  simp only [pairwise_append, pairwise_cons] at h ⊢
  obtain ⟨hl1, ⟨hafter, hl2⟩, hcross⟩ := h
  refine ⟨hl1, ⟨⟨pairwise_part _, pairwise_part _, ?_⟩, hl2, ?_⟩, ?_⟩
  · intro a ha b hb
    obtain ⟨rfl, -⟩ := mem_part ha
    obtain ⟨rfl, -⟩ := mem_part hb
    exact hd
  · intro a ha b hb
    have := (hin a ha).2
    have := hafter b hb
    omega
  · intro a ha b hb
    have := hcross a ha (s, n) mem_cons_self
    rcases mem_append.mp hb with hb | hb
    · have := (hin b hb).1
      omega
    · exact hcross a ha b (mem_cons_of_mem _ hb)

lemma Layout.cut {d t k : Nat} (h : Layout (l1 ++ (s, n) :: l2)) (hd : s + d ≤ t)
    (ht : t + k ≤ s + n) : Layout (l1 ++ ((part s d ++ part t k) ++ l2)) := by
  have hle := h.around.2.1
  have hl2 := h.right.sublist (sublist_cons_self _ l2)
  refine ⟨?_, ?_, pairwise_cut 0 h.ordered hd ht⟩
  · simp only [forall_mem_append]
    exact ⟨h.left.pos, ⟨fun a ha => (mem_part ha).1 ▸ (mem_part ha).2,
      fun a ha => (mem_part ha).1 ▸ (mem_part ha).2⟩, hl2.pos⟩
  · simp only [forall_mem_append]
    refine ⟨h.left.le, ⟨?_, ?_⟩, hl2.le⟩ <;> intro a ha <;> obtain ⟨rfl, -⟩ := mem_part ha <;>
      dsimp only <;> omega

-- == reading

lemma Holds.read (l1 : List Block) (h : Holds mem pageUnits (l1 ++ (s, n) :: l2))
    (hl : Layout (l1 ++ (s, n) :: l2)) :
    slobUnits mem s = n ∧ slobNext mem s = first pageUnits l2 ∧
      (slobLast mem s = true ↔ l2 = []) := by
  obtain ⟨hpos, hle, -, hafter, hnext, hnext'⟩ := hl.around
  have henc := (holds_append.mp h).2.1
  have hread := henc.next_eq hpos (by omega) (by omega) hnext'
  refine ⟨henc.units hpos, hread, ?_⟩
  unfold slobLast
  rw [hread, decide_eq_true_iff]
  cases l2 with
  | nil => exact iff_of_true (Nat.mod_self _) rfl
  | cons a l2 =>
    have ha := hl.le a (by simp)
    have ha' := hl.pos a (by simp)
    refine iff_of_false ?_ (cons_ne_nil a l2)
    show a.1 % pageUnits ≠ 0
    rw [Nat.mod_eq_of_lt (by omega)]
    have := hafter a mem_cons_self
    omega

lemma walk_eq (h : Holds mem pageUnits l) (hl : Layout l) (hne : l ≠ []) :
    ∀ fuel, l.length ≤ fuel → walk mem fuel (first pageUnits l) = l := by
  induction l with
  | nil => exact absurd rfl hne
  | cons a rest ih =>
    intro fuel hfuel
    rw [length_cons] at hfuel
    rcases fuel with _ | fuel
    · omega
    obtain ⟨hunits, hnext, hlast⟩ := Holds.read [] h hl
    show walk mem (fuel + 1) a.1 = _
    rw [walk, hunits, hnext, Int.toNat_natCast]
    congr 1
    by_cases hrest : rest = []
    · rw [if_pos (hlast.mpr hrest), hrest]
    · rw [if_neg fun h => hrest (hlast.mp h)]
      exact ih h.2 (hl.sublist (sublist_cons_self a rest)) hrest fuel (by omega)

-- == writing

def prevOf (l : List Block) : Option Nat := l.getLast?.map Prod.fst

lemma relink_spec {free : Nat} (h : Holds mem e l) (hl : Layout l)
    (hfree : free = first e l) (hx : x ≤ pageUnits) :
    Holds (relink mem free (prevOf l) x).1 x l ∧ (relink mem free (prevOf l) x).2 = first x l ∧
      ∀ i, (∀ a ∈ l, i < a.1 ∨ a.1 + a.2 ≤ i) → (relink mem free (prevOf l) x).1 i = mem i := by
  rcases eq_nil_or_concat' l with rfl | ⟨front, ⟨s, n⟩, rfl⟩
  · exact ⟨trivial, rfl, fun _ _ => rfl⟩
  obtain ⟨hpos, hle, hbefore, -⟩ := hl.around
  obtain ⟨hfront, henc, -⟩ := holds_append.mp h
  have hprev : prevOf (front ++ [(s, n)]) = some s := by simp [prevOf]
  have hunits : slobUnits mem s = n := henc.units hpos
  rw [hprev, relink, hunits]
  dsimp only
  refine ⟨?_, ?_, ?_⟩
  · rw [holds_append]
    refine ⟨hfront.congr hl.left.pos ?_, enc_setSlob mem (by omega) (by omega) hpos hx, trivial⟩
    intro a ha i _ hi
    have := hbefore a ha
    exact setSlob_frame (by omega)
  · rw [hfree, first_append, first_append]
    rfl
  · intro i hi
    exact setSlob_frame ⟨by omega, hpos, hi (s, n) (by simp)⟩

end BoardStack.Slob
