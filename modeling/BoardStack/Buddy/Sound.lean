/-
The invariant of the buddy allocator, and that the calls keep it.

While a call is under way, one block is neither free nor in use: it is in hand.
`Inv` speaks of the free blocks `F` and of the blocks `B` in use or in hand, which
together tile the zone, and of the number `k` by which the counter of free pages
is ahead. A block that is taken from a list goes from `F` to `B`, one that is put
on a list goes back, and blocks in hand can be split and joined.

The loop of `__free_one_page` joins the block in hand with its buddy as long as
this is free, and `expand` splits it and puts the upper halves on their lists. A
block may be stolen from the lists of another type, and then blocks of its page
block are moved between lists, which changes nothing of what the lists hold
together.
-/
import Mathlib.Data.List.Nodup
import Mathlib.Data.List.Pairwise
import BoardStack.Buddy.Basic
import Mathlib.Data.Nat.ModEq

namespace BoardStack.Buddy

open Tiling List

-- == the lists

lemma flatMap_perm_cons {K A : Type} {keys : List K} {k : K} {f g : K → List A}
    {a : A} (hn : keys.Nodup) (hk : k ∈ keys) (hf : (f k).Perm (a :: g k))
    (hne : ∀ j ∈ keys, j ≠ k → f j = g j) :
    (keys.flatMap f).Perm (a :: keys.flatMap g) := by
  induction keys with
  | nil => cases hk
  | cons j keys ih =>
    obtain ⟨hj, hn⟩ := nodup_cons.mp hn
    rw [flatMap_cons, flatMap_cons]
    rcases mem_cons.mp hk with rfl | hk
    · have hrest : keys.flatMap f = keys.flatMap g := by
        refine flatMap_congr fun i hi => ?_
        exact hne i (mem_cons_of_mem _ hi) fun he => hj (he ▸ hi)
      rw [hrest]
      exact hf.append_right _
    · rw [hne j (by simp) fun he => hj (he ▸ hk)]
      refine ((ih hn hk fun i hi => hne i (mem_cons_of_mem _ hi)).append_left _).trans ?_
      exact perm_middle

lemma mem_migrateTypes (t : MigrateType) : t ∈ migrateTypes := by
  cases t <;> decide

lemma migrateTypes_nodup : migrateTypes.Nodup := by decide

variable {b : Block}

lemma mem_areaBlocks {z : Zone} {o : Nat} :
    b ∈ areaBlocks z o ↔ b.order = o ∧ ∃ t, b.start ∈ z.freeList o t := by
  simp only [areaBlocks, mem_flatMap, mem_map]
  constructor
  · rintro ⟨t, -, p, hp, rfl⟩
    exact ⟨rfl, t, hp⟩
  · rintro ⟨rfl, t, hp⟩
    exact ⟨t, mem_migrateTypes t, b.start, hp, rfl⟩

lemma mem_freeBlocks {c : Conf} {z : Zone} :
    b ∈ freeBlocks c z ↔ b.order < c.maxOrder ∧ ∃ t, b.start ∈ z.freeList b.order t := by
  simp only [freeBlocks, mem_flatMap, mem_range, mem_areaBlocks]
  constructor
  · rintro ⟨o, ho, rfl, ht⟩
    exact ⟨ho, ht⟩
  · rintro ⟨ho, ht⟩
    exact ⟨b.order, ho, rfl, ht⟩

section

variable {c : Conf} {z : Zone} {p o : Nat} {t : MigrateType}

lemma areaBlocks_listAdd : (areaBlocks (z.listAdd p o t) o).Perm (⟨p, o⟩ :: areaBlocks z o) := by
  refine flatMap_perm_cons migrateTypes_nodup (mem_migrateTypes t) ?_ ?_
  · simp [Zone.listAdd]
  · intro t' _ hne
    simp [Zone.listAdd, hne]

lemma freeBlocks_listAdd (ho : o < c.maxOrder) :
    (freeBlocks c (z.listAdd p o t)).Perm (⟨p, o⟩ :: freeBlocks c z) := by
  refine flatMap_perm_cons nodup_range (mem_range.mpr ho) areaBlocks_listAdd ?_
  intro o' _ hne
  simp [areaBlocks, Zone.listAdd, hne]

lemma freeBlocks_listDel (ho : o < c.maxOrder) (hp : p ∈ z.freeList o t)
    (honly : ∀ o' t', o' < c.maxOrder → p ∈ z.freeList o' t' → o' = o ∧ t' = t) :
    (freeBlocks c z).Perm (⟨p, o⟩ :: freeBlocks c (z.listDel p)) := by
  refine flatMap_perm_cons nodup_range (mem_range.mpr ho) ?_ ?_
  · refine flatMap_perm_cons migrateTypes_nodup (mem_migrateTypes t) ?_ ?_
    · exact (perm_cons_erase hp).map _
    · intro t' _ hne
      have hnot : p ∉ z.freeList o t' := fun hm => hne (honly o t' ho hm).2
      simp only [Zone.listDel, erase_of_not_mem hnot]
  intro o' ho' hne
  refine flatMap_congr fun t' _ => ?_
  have hnot : p ∉ z.freeList o' t' := by
    intro hm
    exact hne (honly o' t' (mem_range.mp ho') hm).1
  simp only [Zone.listDel, erase_of_not_mem hnot]

/-- A page is on one list only. -/
lemma freeList_unique (hs : ((freeBlocks c z).map Block.start).Nodup) (ho : o < c.maxOrder)
    (hp : p ∈ z.freeList o t) {o' : Nat} {t' : MigrateType} (ho' : o' < c.maxOrder)
    (hp' : p ∈ z.freeList o' t') : o' = o ∧ t' = t := by
  have horder : (⟨p, o'⟩ : Block) = ⟨p, o⟩ :=
    inj_on_of_nodup_map hs (mem_freeBlocks.mpr ⟨ho', t', hp'⟩) (mem_freeBlocks.mpr ⟨ho, t, hp⟩) rfl
  obtain rfl : o' = o := congrArg Block.order horder
  refine ⟨rfl, ?_⟩
  by_contra hne
  have harea := (nodup_flatMap.mp hs.of_map).1 o' (mem_range.mpr ho)
  have hdisj := (nodup_flatMap.mp harea).2
  have : Std.Symm fun t t' => List.Disjoint ((z.freeList o' t).map fun page => (⟨page, o'⟩ : Block))
      ((z.freeList o' t').map fun page => (⟨page, o'⟩ : Block)) := ⟨fun _ _ h _ ha hb => h hb ha⟩
  exact hdisj.forall (mem_migrateTypes t') (mem_migrateTypes t) hne
    (mem_map_of_mem hp') (mem_map_of_mem hp)

end

-- == the books

def pagesOf : List Block → Int
  | [] => 0
  | b :: bs => 2 ^ b.order + pagesOf bs

lemma pagesOf_perm {bs bs' : List Block} (h : bs.Perm bs') : pagesOf bs = pagesOf bs' := by
  induction h with
  | nil => rfl
  | cons b _ ih => rw [pagesOf, pagesOf, ih]
  | swap a b bs =>
    simp only [pagesOf]
    ring
  | trans _ _ ih1 ih2 => exact ih1.trans ih2

/-- The lists hold the blocks `F`, and `PG_buddy` and the orders say so. -/
structure Lists (c : Conf) (F : List Block) (z : Zone) : Prop where
  perm : (freeBlocks c z).Perm F
  above : ∀ o t, c.maxOrder ≤ o → z.freeList o t = []
  buddy : ∀ b : Block, z.pageBuddy b.start = true ∧ z.pagePrivate b.start = b.order ↔ b ∈ F

structure Inv (c : Conf) (F B : List Block) (k : Int) (z : Zone) : Prop
    extends Lists c F z where
  tiles : Tiles c.inZone (F ++ B)
  order_lt : ∀ b ∈ B, b.order < c.maxOrder
  /-- No two buddies are free. -/
  apart : ∀ b ∈ F, b.order + 1 < c.maxOrder → b.buddy ∉ F
  nr : ∀ o, z.nrFree o = F.countP fun b => b.order = o
  pages : z.nrFreePages = pagesOf F + k

namespace Lists

variable {c : Conf} {F : List Block} {z : Zone}

lemma mem_iff (h : Lists c F z) :
    b ∈ F ↔ b.order < c.maxOrder ∧ ∃ t, b.start ∈ z.freeList b.order t := by
  rw [← h.perm.mem_iff, mem_freeBlocks]

lemma of_perm {F' : List Block} (h : Lists c F z) (hp : F.Perm F') : Lists c F' z :=
  ⟨h.perm.trans hp, h.above, fun b => (h.buddy b).trans hp.mem_iff⟩

variable {p o : Nat}

lemma del (h : Lists c (⟨p, o⟩ :: F) z) (hs : ((⟨p, o⟩ :: F).map Block.start).Nodup) :
    (freeBlocks c (z.listDel p)).Perm F := by
  obtain ⟨ho, t, hp⟩ := h.mem_iff.mp (mem_cons_self (a := (⟨p, o⟩ : Block)))
  have hdel := freeBlocks_listDel ho hp fun o' t' ho' hp' =>
    freeList_unique ((h.perm.map _).nodup_iff.mpr hs) ho hp ho' hp'
  exact (perm_cons _).mp (hdel.symm.trans h.perm)

lemma above_listDel (h : Lists c F z) (p : Nat) :
    ∀ o t, c.maxOrder ≤ o → (z.listDel p).freeList o t = [] := by
  intro o t ho
  simp [Zone.listDel, h.above o t ho]

lemma move (h : Lists c (⟨p, o⟩ :: F) z) (hs : ((⟨p, o⟩ :: F).map Block.start).Nodup)
    (t : MigrateType) : Lists c (⟨p, o⟩ :: F) ((z.listDel p).listAdd p o t) := by
  have ho : o < c.maxOrder := (h.mem_iff.mp (mem_cons_self (a := (⟨p, o⟩ : Block)))).1
  refine ⟨(freeBlocks_listAdd ho).trans ((h.del hs).cons _), ?_, h.buddy⟩
  intro o' t' ho'
  have hne : ¬(o' = o ∧ t' = t) := by omega
  simp only [Zone.listAdd, if_neg hne]
  exact h.above_listDel p o' t' ho'

end Lists

-- == the moves

def Zone.takeBlock (z : Zone) (b : Block) : Zone :=
  ((z.listDel b.start).rmvPageOrder b.start).addNrFree b.order (-1)

def Zone.putBlock (z : Zone) (b : Block) (t : MigrateType) : Zone :=
  ((z.setPageOrder b.start b.order).listAdd b.start b.order t).addNrFree b.order 1

namespace Inv

variable {c : Conf} {F F' B B' : List Block} {b : Block} {k : Int} {z : Zone}

lemma of_perm (h : Inv c F B k z) (hF : F.Perm F') (hB : B.Perm B') : Inv c F' B' k z := by
  refine ⟨h.toLists.of_perm hF, h.tiles.perm (hF.append hB), ?_, ?_, ?_, ?_⟩
  · intro b hb
    exact h.order_lt b (hB.mem_iff.mpr hb)
  · intro b hb ho hm
    exact h.apart b (hF.mem_iff.mpr hb) ho (hF.mem_iff.mpr hm)
  · intro o
    rw [h.nr o, hF.countP_eq]
  · rw [h.pages, pagesOf_perm hF]

lemma starts_nodup (h : Inv c F B k z) : (F.map Block.start).Nodup := by
  refine h.tiles.nodup.of_append_left.map_on ?_
  intro a ha b hb he
  exact h.tiles.start_inj (mem_append_left _ hb) (mem_append_left _ ha) he

lemma modZonePageState (h : Inv c F B k z) (d : Int) :
    Inv c F B (k + d) (z.modZonePageState d) := by
  refine ⟨⟨h.perm, h.above, h.buddy⟩, h.tiles, h.order_lt, h.apart, h.nr, ?_⟩
  show z.nrFreePages + d = _
  rw [h.pages]
  ring

lemma setPageblock (h : Inv c F B k z) (page : Nat) (t : MigrateType) :
    Inv c F B k (setPageblockMigratetype c z page t) :=
  ⟨⟨h.perm, h.above, h.buddy⟩, h.tiles, h.order_lt, h.apart, h.nr, h.pages⟩

/-- A block leaves the lists. -/
lemma take (h : Inv c (b :: F) B k z) : Inv c F (b :: B) (k + 2 ^ b.order) (z.takeBlock b) := by
  have htiles : Tiles c.inZone (b :: (F ++ B)) := h.tiles
  refine ⟨⟨h.del h.starts_nodup, h.above_listDel b.start, ?_⟩,
    h.tiles.perm perm_middle.symm, ?_, ?_, ?_, ?_⟩
  · intro a
    show (if a.start = b.start then false else z.pageBuddy a.start) = true ∧
      (if a.start = b.start then 0 else z.pagePrivate a.start) = a.order ↔ a ∈ F
    by_cases he : a.start = b.start
    · rw [if_pos he]
      refine ⟨fun hf => absurd hf.1 (by simp), fun ha => ?_⟩
      exact absurd he (htiles.start_ne (mem_append_left _ ha))
    rw [if_neg he, if_neg he, h.buddy a]
    refine ⟨fun ha => ?_, mem_cons_of_mem _⟩
    rcases mem_cons.mp ha with rfl | ha
    · exact absurd rfl he
    · exact ha
  · exact forall_mem_cons.mpr ⟨(h.mem_iff.mp mem_cons_self).1, h.order_lt⟩
  · intro a ha ho hm
    exact h.apart a (mem_cons_of_mem _ ha) ho (mem_cons_of_mem _ hm)
  · intro o
    have hnr := h.nr o
    show (if o = b.order then z.nrFree o + -1 else z.nrFree o) = _
    rcases eq_or_ne o b.order with rfl | ho
    · simp [hnr]
    · simp [hnr, ho, ho.symm]
  · show z.nrFreePages = _
    rw [h.pages, pagesOf]
    ring

/-- A block goes on a list; its buddy is not free. -/
lemma put (h : Inv c F (b :: B) k z) (t : MigrateType)
    (hbuddy : b.order + 1 < c.maxOrder → b.buddy ∉ F) :
    Inv c (b :: F) B (k - 2 ^ b.order) (z.putBlock b t) := by
  have htiles : Tiles c.inZone (b :: (F ++ B)) := h.tiles.perm perm_middle
  have ho := h.order_lt b (by simp)
  refine ⟨⟨?_, ?_, ?_⟩, htiles, ?_, ?_, ?_, ?_⟩
  · exact (freeBlocks_listAdd (z := z.setPageOrder b.start b.order) ho).trans (h.perm.cons b)
  · intro o' t' ho'
    have hne : ¬(o' = b.order ∧ t' = t) := by omega
    show (if o' = b.order ∧ t' = t then _ else z.freeList o' t') = []
    rw [if_neg hne, h.above o' t' ho']
  · intro a
    show (if a.start = b.start then true else z.pageBuddy a.start) = true ∧
      (if a.start = b.start then b.order else z.pagePrivate a.start) = a.order ↔ a ∈ b :: F
    by_cases he : a.start = b.start
    · rw [if_pos he, if_pos he]
      constructor
      · rintro ⟨-, horder⟩
        have hab : a = b := by
          cases a
          cases b
          simp_all
        exact hab ▸ mem_cons_self
      · intro ha
        rcases mem_cons.mp ha with rfl | ha
        · exact ⟨rfl, rfl⟩
        · exact absurd he (htiles.start_ne (mem_append_left _ ha))
    · rw [if_neg he, if_neg he, h.buddy a, mem_cons]
      refine ⟨.inr, fun ha => ha.resolve_left fun hab => he ?_⟩
      rw [hab]
  · intro a ha
    exact h.order_lt a (mem_cons_of_mem _ ha)
  · intro a ha hlt hm
    have hal := htiles.aligned b (by simp)
    rcases mem_cons.mp ha with rfl | ha
    · rcases mem_cons.mp hm with hm | hm
      · exact Block.buddy_ne hal hm
      · exact hbuddy hlt hm
    · rcases mem_cons.mp hm with hm | hm
      · rw [← hm, Block.buddy_buddy] at hbuddy
        exact hbuddy hlt ha
      · exact h.apart a ha hlt hm
  · intro o
    have hnr := h.nr o
    rw [countP_cons]
    show (if o = b.order then z.nrFree o + 1 else z.nrFree o) = _
    rcases eq_or_ne o b.order with rfl | ho
    · simp [hnr]
    · simp [hnr, ho, ho.symm]
  · show z.nrFreePages = _
    rw [h.pages, pagesOf]
    ring

lemma split (h : Inv c F (⟨p, o + 1⟩ :: B) k z) : Inv c F (⟨p + 2 ^ o, o⟩ :: ⟨p, o⟩ :: B) k z := by
  have ho : o + 1 < c.maxOrder := h.order_lt ⟨p, o + 1⟩ (by simp)
  have htiles := (h.tiles.perm perm_middle).split
  refine ⟨h.toLists, htiles.perm ?_, ?_, h.apart, h.nr, h.pages⟩
  · refine (List.Perm.swap _ _ _).trans ?_
    exact (perm_append_comm_assoc [_, _] F B)
  · have ho : o < c.maxOrder := by omega
    exact forall_mem_cons.mpr ⟨ho, forall_mem_cons.mpr ⟨ho, (forall_mem_cons.mp h.order_lt).2⟩⟩

lemma join (h : Inv c F (b :: b.buddy :: B) k z) (ho : b.order + 1 < c.maxOrder) :
    Inv c F (b.parent :: B) k z := by
  have htiles : Tiles c.inZone (b :: b.buddy :: (F ++ B)) :=
    h.tiles.perm (perm_append_comm_assoc F [b, b.buddy] B)
  refine ⟨h.toLists, htiles.join.perm perm_middle.symm, ?_, h.apart, h.nr, h.pages⟩
  exact forall_mem_cons.mpr ⟨ho, fun a ha => h.order_lt a (by simp [ha])⟩

lemma relist {z' : Zone} (h : Inv c F B k z) (hl : Lists c F z')
    (hnr : z'.nrFree = z.nrFree) (hpages : z'.nrFreePages = z.nrFreePages) :
    Inv c F B k z' :=
  ⟨hl, h.tiles, h.order_lt, h.apart, fun o => hnr ▸ h.nr o, hpages.trans h.pages⟩

end Inv

open Nat

-- == the page index

lemma pageIdx_eq {k o m : Nat} (hm : o < m) :
    2 ^ o * k % 2 ^ m = 2 ^ o * (k % 2 ^ (m - o)) ∧ k % 2 ^ (m - o) % 2 = k % 2 := by
  obtain ⟨d, rfl⟩ := Nat.exists_eq_add_of_lt hm
  rw [show o + d + 1 - o = d + 1 by omega, show o + d + 1 = o + (d + 1) by omega]
  refine ⟨by rw [pow_add, mul_mod_mul_left], ?_⟩
  exact mod_mod_of_dvd k (Dvd.intro_left (2 ^ d) (pow_succ ..).symm)

variable {b : Block} {m : Nat}

/-- The index in a block of maximal order is enough for the buddy. -/
lemma pageFindBuddy_eq (h : b.Aligned) (hm : b.order < m) :
    pageFindBuddy b.start (b.start % 2 ^ m) b.order = b.buddy.start := by
  obtain ⟨k, hk⟩ := h
  obtain ⟨hidx, hpar⟩ := pageIdx_eq (k := k) hm
  have hle : 2 ^ b.order * (k % 2 ^ (m - b.order)) ≤ 2 ^ b.order * k :=
    Nat.mul_le_mul_left _ (mod_le _ _)
  unfold pageFindBuddy Block.buddy
  dsimp only
  rw [hk, hidx, mul_pow_xor, mul_pow_xor, hpar]
  rcases mod_two_eq_zero_or_one k with h0 | h1
  · rw [if_pos h0, if_pos h0]
    generalize 2 ^ b.order * (k % 2 ^ (m - b.order)) = y at hle ⊢
    generalize 2 ^ b.order * k = x at hle ⊢
    generalize 2 ^ b.order = q
    omega
  have hpos : 2 ^ b.order ≤ 2 ^ b.order * (k % 2 ^ (m - b.order)) :=
    Nat.le_mul_of_pos_right _ (by omega)
  rw [if_neg (by omega), if_neg (by omega)]
  generalize 2 ^ b.order * (k % 2 ^ (m - b.order)) = y at hle hpos ⊢
  generalize 2 ^ b.order * k = x at hle ⊢
  omega

/-- And for the merged block. -/
lemma findCombinedIndex_eq (h : b.Aligned) (hm : b.order + 1 < m) :
    findCombinedIndex (b.start % 2 ^ m) b.order = b.parent.start % 2 ^ m ∧
      b.start + b.parent.start % 2 ^ m - b.start % 2 ^ m = b.parent.start := by
  obtain ⟨k, hk⟩ := h
  obtain ⟨hidx, hpar⟩ := pageIdx_eq (k := k) (lt_of_succ_lt hm)
  rw [← hk] at hidx
  have hle : b.start % 2 ^ m ≤ b.start := mod_le _ _
  have hand : b.start % 2 ^ m &&& 2 ^ b.order = 2 ^ b.order * (k % 2) := by
    have hs := shiftLeft_and_distrib (a := k % 2 ^ (m - b.order)) (b := 1) (i := b.order)
    simp only [shiftLeft_eq, one_mul, and_one_is_mod, hpar] at hs
    rw [hidx, mul_comm _ (k % 2 ^ (m - b.order)), ← hs, mul_comm]
  have hmod : b.start % 2 ^ (b.order + 1) = 2 ^ b.order * (k % 2) := by
    rw [hk, pow_succ, mul_mod_mul_left]
  unfold findCombinedIndex Block.parent
  dsimp only
  rw [hand, hmod]
  rcases mod_two_eq_zero_or_one k with h0 | h1
  · rw [h0, mul_zero, xor_zero, Nat.sub_zero]
    exact ⟨rfl, Nat.add_sub_cancel ..⟩
  have hpos : 2 ^ b.order ≤ b.start % 2 ^ m := by
    rw [hidx]
    exact Nat.le_mul_of_pos_right _ (by omega)
  have hxor : b.start % 2 ^ m ^^^ 2 ^ b.order = b.start % 2 ^ m - 2 ^ b.order := by
    rw [hidx, mul_pow_xor, if_neg (by omega)]
  have hsub := (mod_sub_of_le hpos).symm
  rw [h1, mul_one, hsub, hxor]
  refine ⟨rfl, ?_⟩
  generalize b.start % 2 ^ m = y at hle hpos ⊢
  omega

-- == free

variable {c : Conf} {z : Zone} {F B : List Block}

/-- The test reads `PG_buddy` and the order. -/
lemma pageIsBuddy_iff {k : Int} (h : Inv c F B k z) (b : Block) :
    pageIsBuddy c z b.start b.order = true ↔ b ∈ F := by
  rw [← h.buddy b]
  unfold pageIsBuddy
  constructor
  · intro hp
    split at hp
    · cases hp
    · simpa using hp
  intro hp
  have hin : c.inZone b.start = true := by
    have hcount := h.tiles.count b.start
    have hpos : 0 < (F ++ B).countP (Block.covers b.start) :=
      countP_pos_iff.mpr ⟨b, mem_append_left _ ((h.buddy b).mp hp), Block.covers_start⟩
    by_contra hout
    rw [if_neg hout] at hcount
    omega
  simpa [hin] using hp

/-- Blocks are merged while the buddy is free. -/
lemma freeLoop_spec {B : List Block} :
    ∀ (n : Nat) {F : List Block} {b : Block} {z : Zone},
      Inv c F (b :: B) (2 ^ b.order) z → b.order + n = c.maxOrder - 1 →
      ∃ F' b' z', freeLoop c n z b.start (b.start % 2 ^ c.maxOrder) b.order =
          (z', b'.start, b'.order) ∧
        Inv c F' (b' :: B) (2 ^ b'.order) z' ∧
        (b'.order + 1 < c.maxOrder → b'.buddy ∉ F') := by
  intro n
  induction n with
  | zero =>
    intro F b z h ho
    refine ⟨F, b, z, rfl, h, fun hlt => ?_⟩
    omega
  | succ n ih =>
    intro F b z h ho
    have hal : b.Aligned := h.tiles.aligned b (by simp)
    have hlt : b.order + 1 < c.maxOrder := by omega
    have hcomb := findCombinedIndex_eq hal hlt
    unfold freeLoop
    dsimp only
    rw [pageFindBuddy_eq hal (lt_of_succ_lt hlt), hcomb.1, hcomb.2]
    by_cases hfree : b.buddy ∈ F
    · have hb : pageIsBuddy c z b.buddy.start b.order = true :=
        (pageIsBuddy_iff h b.buddy).mpr hfree
      rw [if_neg (by simp [hb])]
      -- the buddy is taken from its list, and the two blocks are joined
      have htake := (h.of_perm (perm_cons_erase hfree)
        (Perm.refl _)).take.of_perm (Perm.refl _) (Perm.swap _ _ _)
      have hjoin := htake.join hlt
      have hk : (2 : Int) ^ b.order + 2 ^ b.buddy.order = 2 ^ b.parent.order := by
        show (2 : Int) ^ b.order + 2 ^ b.order = 2 ^ (b.order + 1)
        ring
      rw [hk] at hjoin
      exact ih hjoin (by show b.order + 1 + n = _; omega)
    · have hb : pageIsBuddy c z b.buddy.start b.order = false := by
        rw [Bool.eq_false_iff]
        exact fun hb => hfree ((pageIsBuddy_iff h b.buddy).mp hb)
      rw [if_pos (by simp [hb])]
      exact ⟨F, b, z, rfl, h, fun _ => hfree⟩

lemma freeOnePage_inv (h : Inv c F (b :: B) 0 z) :
    ∃ F', Inv c F' B 0 (freeOnePage c z b.start b.order) := by
  have hlt := h.order_lt b (by simp)
  have hmod := h.modZonePageState (2 ^ b.order)
  rw [zero_add] at hmod
  obtain ⟨F', b', z', heq, hinv, hbuddy⟩ := freeLoop_spec (c.maxOrder - 1 - b.order) hmod (by omega)
  refine ⟨b' :: F', ?_⟩
  have hput := hinv.put (getPageblockMigratetype c z b.start) hbuddy
  rw [sub_self] at hput
  unfold freeOnePage
  dsimp only
  rw [heq]
  exact hput

-- == allocate

/-- The upper halves go on the lists. -/
lemma expand_inv {B : List Block} {p low : Nat} (t : MigrateType) :
    ∀ (n : Nat) {F : List Block} {z : Zone},
      Inv c F (⟨p, low + n⟩ :: B) (2 ^ (low + n) - 2 ^ low) z →
      ∃ F', Inv c F' (⟨p, low⟩ :: B) 0 (expand z p low t n) := by
  intro n
  induction n with
  | zero =>
    intro F z h
    refine ⟨F, ?_⟩
    rwa [add_zero, sub_self] at h
  | succ n ih =>
    intro F z h
    have hal : 2 ^ (low + n + 1) ∣ p := h.tiles.aligned ⟨p, low + (n + 1)⟩ (by simp)
    have hsplit := Inv.split (o := low + n) h
    have hput := hsplit.put t (by
      intro _ hm
      rw [Block.buddy_upper hal] at hm
      have htiles := hsplit.tiles.perm (perm_append_comm_assoc F [_, _] B)
      refine (htiles.perm (Perm.swap _ _ _)).start_ne (c := ⟨p, low + n⟩) ?_ rfl
      simp [hm])
    have hk : (2 : Int) ^ (low + (n + 1)) - 2 ^ low - 2 ^ (low + n) =
        2 ^ (low + n) - 2 ^ low := by ring
    rw [hk] at hput
    exact ih hput

lemma take_expand {page cur order : Nat} (h : Inv c F B 0 z) (hmem : ⟨page, cur⟩ ∈ F)
    (hle : order ≤ cur) (t : MigrateType) :
    ∃ F', Inv c F' (⟨page, order⟩ :: B) 0
      (expand ((z.takeBlock ⟨page, cur⟩).modZonePageState (-(2 ^ order))) page order t
        (cur - order)) := by
  have htake := (h.of_perm (perm_cons_erase hmem) (Perm.refl B)).take
  have hmod := htake.modZonePageState (-(2 ^ order))
  refine expand_inv t (cur - order) (F := F.erase ⟨page, cur⟩) ?_
  rw [Nat.add_sub_cancel' hle]
  rwa [zero_add, ← Int.sub_eq_add_neg] at hmod

/-- What a search for a block comes to: a block of the order is in use, or the
zone is as it was and the lists that were looked at are empty. -/
def Found (c : Conf) (B : List Block) (z : Zone) (order : Nat)
    (empty : Nat → MigrateType → Prop) (r : Zone × Option Nat) : Prop :=
  (∃ page F, r.2 = some page ∧ Inv c F (⟨page, order⟩ :: B) 0 r.1) ∨
    (r = (z, none) ∧ ∀ o t, empty o t → z.freeList o t = [])

section

variable {c : Conf} {F B : List Block} {z : Zone} {order : Nat}

lemma Found.mono {empty empty' : Nat → MigrateType → Prop} {r : Zone × Option Nat}
    (h : Found c B z order empty r) (he : ∀ o t, empty' o t → empty o t ∨ z.freeList o t = []) :
    Found c B z order empty' r :=
  h.imp id fun h => ⟨h.1, fun o t ht => (he o t ht).elim (h.2 o t) id⟩

lemma smallestLoop_found (h : Inv c F B 0 z) (t : MigrateType) (orders : List Nat)
    (ho : ∀ o ∈ orders, order ≤ o ∧ o < c.maxOrder) :
    Found c B z order (fun o t' => o ∈ orders ∧ t' = t) (smallestLoop z order t orders) := by
  induction orders with
  | nil => exact .inr ⟨rfl, by simp⟩
  | cons cur orders ih =>
    unfold smallestLoop
    split
    · next hnil =>
        refine (ih fun o hm => ho o (mem_cons_of_mem _ hm)).mono ?_
        rintro o t' ⟨hm, rfl⟩
        rcases mem_cons.mp hm with rfl | hm
        · exact .inr hnil
        · exact .inl ⟨hm, rfl⟩
    next page rest hcons =>
      obtain ⟨hle, hlt⟩ := ho cur (by simp)
      have hmem : (⟨page, cur⟩ : Block) ∈ F := by
        refine h.mem_iff.mpr ⟨hlt, t, ?_⟩
        rw [hcons]
        exact mem_cons_self
      obtain ⟨F', hinv⟩ := take_expand h hmem hle t
      exact .inl ⟨page, F', rfl, hinv⟩

lemma rmqueueSmallest_found (order : Nat) (h : Inv c F B 0 z) (t : MigrateType) :
    Found c B z order (fun o t' => (order ≤ o ∧ o < c.maxOrder) ∧ t' = t)
      (rmqueueSmallest c z order t) := by
  have hrange : ∀ o, o ∈ range' order (c.maxOrder - order) ↔ order ≤ o ∧ o < c.maxOrder := by
    intro o
    rw [mem_range'_1]
    omega
  rcases smallestLoop_found h t _ fun o hm => (hrange o).mp hm with hf | ⟨heq, he⟩
  · exact .inl hf
  · exact .inr ⟨heq, fun o t' ho => he o t' ⟨(hrange o).mpr ho.1, ho.2⟩⟩

-- == stealing

/-- `z'` has the blocks `F` on its lists, and the books of `z`. -/
structure Relisted (c : Conf) (F : List Block) (z z' : Zone) : Prop extends Lists c F z' where
  nrFree : z'.nrFree = z.nrFree
  nrFreePages : z'.nrFreePages = z.nrFreePages

lemma moveLoop_relisted (hs : (F.map Block.start).Nodup) (t : MigrateType) (endPage : Nat) :
    ∀ (n : Nat) {z : Zone} (page moved : Nat), Lists c F z →
      Relisted c F z (moveLoop t endPage n z page moved).1 := by
  intro n
  induction n with
  | zero =>
    intro z page moved h
    exact ⟨h, rfl, rfl⟩
  | succ n ih =>
    intro z page moved h
    unfold moveLoop
    split
    · exact ⟨h, rfl, rfl⟩
    split
    · exact ih (page + 1) moved h
    next hbuddy =>
      have hmem : (⟨page, z.pagePrivate page⟩ : Block) ∈ F :=
        (h.buddy _).mp ⟨by simpa using hbuddy, rfl⟩
      have hperm := perm_cons_erase hmem
      have hmove := (h.of_perm hperm).move ((hperm.map _).nodup_iff.mp hs) t
      obtain ⟨hl, hnr, hpages⟩ := ih (page + 2 ^ z.pagePrivate page)
        (moved + 2 ^ z.pagePrivate page) (hmove.of_perm hperm.symm)
      exact ⟨hl, hnr, hpages⟩

/-- The loop goes on by a page at least, so that the bound does not cut it off. -/
lemma moveLoop_bound (t : MigrateType) {endPage n page : Nat} (z : Zone) (moved : Nat)
    (hn : endPage < page + n) :
    moveLoop t endPage (n + 1) z page moved = moveLoop t endPage n z page moved := by
  induction n generalizing z page moved with
  | zero => simp [moveLoop, show page > endPage from hn]
  | succ n ih =>
    have hpos := Nat.two_pow_pos (z.pagePrivate page)
    conv_lhs => rw [moveLoop]
    conv_rhs => rw [moveLoop]
    split_ifs
    · rfl
    · exact ih z moved (by omega)
    · exact ih _ _ (by omega)

lemma moveFreepagesBlock_relisted (hs : (F.map Block.start).Nodup) (h : Lists c F z) (page : Nat)
    (t : MigrateType) : Relisted c F z (moveFreepagesBlock c z page t).1 := by
  unfold moveFreepagesBlock moveFreepages
  dsimp only
  split
  · exact ⟨h, rfl, rfl⟩
  · exact moveLoop_relisted hs t _ _ _ _ h

lemma claimPageblock_relisted (hs : (F.map Block.start).Nodup) (h : Lists c F z)
    (start t : MigrateType) (cur page : Nat) :
    Relisted c F z (claimPageblock c z start cur page t).1 := by
  obtain ⟨hl, hnr, hpages⟩ := moveFreepagesBlock_relisted hs h page start
  unfold claimPageblock
  split
  · dsimp only
    split
    · exact ⟨⟨hl.perm, hl.above, hl.buddy⟩, hnr, hpages⟩
    · exact ⟨hl, hnr, hpages⟩
  · exact ⟨h, rfl, rfl⟩

/-- `nr_free` was counted before. -/
lemma takeBlock_late {z2 : Zone} {page cur : Nat}
    (hnr : z2.nrFree = (z.addNrFree cur (-1)).nrFree) :
    (z2.listDel page).rmvPageOrder page =
      Zone.takeBlock { z2 with nrFree := z.nrFree } ⟨page, cur⟩ := by
  cases z2 with
  | mk freeList nrFree nrFreePages pageBuddy pagePrivate pageblock =>
    subst hnr
    rfl

/-- The block is taken from another type. -/
lemma stealPage_inv {page cur : Nat} (h : Inv c F B 0 z) (hmem : ⟨page, cur⟩ ∈ F)
    (hle : order ≤ cur) (start t : MigrateType) :
    ∃ F', Inv c F' (⟨page, order⟩ :: B) 0 (stealPage c z order start cur page t) := by
  have hlists : Lists c F (z.addNrFree cur (-1)) := ⟨h.perm, h.above, h.buddy⟩
  obtain ⟨hl, hnr, hpages⟩ := claimPageblock_relisted h.starts_nodup hlists start t cur page
  unfold stealPage
  dsimp only
  generalize claimPageblock c (z.addNrFree cur (-1)) start cur page t = r at *
  have hinv : Inv c F B 0 { r.1 with nrFree := z.nrFree } :=
    h.relist ⟨hl.perm, hl.above, hl.buddy⟩ rfl hpages
  have htake := (hinv.of_perm (perm_cons_erase hmem) (Perm.refl B)).take
  have hmod := htake.modZonePageState (-(2 ^ order))
  rw [← takeBlock_late hnr, zero_add, ← Int.sub_eq_add_neg] at hmod
  refine expand_inv r.2 (cur - order) (F := F.erase ⟨page, cur⟩) ?_
  rw [Nat.add_sub_cancel' hle]
  split
  · exact hmod.setPageblock page start
  · exact hmod

lemma fallbackArea_spec (cur : Nat) (types : List MigrateType) :
    (∃ page t, fallbackArea z cur types = some (page, t) ∧ page ∈ z.freeList cur t) ∨
      (fallbackArea z cur types = none ∧ ∀ t ∈ types, t ≠ .reserve → z.freeList cur t = []) := by
  induction types with
  | nil => exact .inr ⟨rfl, by simp⟩
  | cons t types ih =>
    unfold fallbackArea
    split
    · next hres =>
        rcases ih with hf | ⟨heq, he⟩
        · exact .inl hf
        · exact .inr ⟨heq, forall_mem_cons.mpr ⟨fun hne => absurd hres hne, he⟩⟩
    split
    · next hnil =>
        rcases ih with hf | ⟨heq, he⟩
        · exact .inl hf
        · exact .inr ⟨heq, forall_mem_cons.mpr ⟨fun _ => hnil, he⟩⟩
    · next page rest hcons =>
        refine .inl ⟨page, t, rfl, ?_⟩
        rw [hcons]
        exact mem_cons_self

/-- The lists that `__rmqueue_fallback` looks at. -/
def Tried (start t : MigrateType) : Prop := t = .reserve ∨ t ∈ fallbacks start

lemma fallbackLoop_found (h : Inv c F B 0 z) (start : MigrateType)
    (orders : List Nat) (ho : ∀ o ∈ orders, order ≤ o ∧ o < c.maxOrder) :
    Found c B z order (fun o t => (order ≤ o ∧ o < c.maxOrder) ∧ t = .reserve ∨
        o ∈ orders ∧ t ∈ fallbacks start ∧ t ≠ .reserve)
      (fallbackLoop c z order start orders) := by
  induction orders with
  | nil =>
    refine (rmqueueSmallest_found order h .reserve).mono ?_
    rintro o t (ho | ⟨hm, -⟩)
    · exact .inl ho
    · cases hm
  | cons cur orders ih =>
    obtain ⟨hle, hlt⟩ := ho cur (by simp)
    unfold fallbackLoop
    rcases fallbackArea_spec (z := z) cur (fallbacks start) with
      ⟨page, t, heq, hm⟩ | ⟨heq, hnil⟩
    · rw [heq]
      obtain ⟨F', hinv⟩ := stealPage_inv h (h.mem_iff.mpr ⟨hlt, t, hm⟩) hle start t
      exact .inl ⟨page, F', rfl, hinv⟩
    rw [heq]
    refine (ih fun o hm => ho o (mem_cons_of_mem _ hm)).mono ?_
    rintro o t (hres | ⟨hm, ht, hne⟩)
    · exact .inl (.inl hres)
    · rcases mem_cons.mp hm with rfl | hm
      · exact .inr (hnil t ht hne)
      · exact .inl (.inr ⟨hm, ht, hne⟩)

/-- Nothing is found only if all lists tried are empty. -/
lemma rmqueue_found (order : Nat) (h : Inv c F B 0 z) (start : MigrateType) :
    Found c B z order (fun o t => (order ≤ o ∧ o < c.maxOrder) ∧ (t = start ∨ Tried start t))
      (rmqueue c z order start) := by
  unfold rmqueue
  have hsmall := rmqueueSmallest_found order h start
  generalize rmqueueSmallest c z order start = r at hsmall
  obtain ⟨z', r⟩ := r
  rcases hsmall with ⟨page, F', hsome, hinv⟩ | ⟨heq, hstart⟩
  · obtain rfl : r = some page := hsome
    exact .inl ⟨page, F', rfl, hinv⟩
  obtain ⟨rfl, rfl⟩ := Prod.mk.inj heq
  have hrange : ∀ o, o ∈ (range' order (c.maxOrder - order)).reverse ↔
      order ≤ o ∧ o < c.maxOrder := by
    intro o
    rw [mem_reverse, mem_range'_1]
    omega
  rcases fallbackLoop_found h start _ fun o hm => (hrange o).mp hm with
    hf | ⟨heq, he⟩
  · exact .inl hf
  refine .inr ⟨heq, ?_⟩
  rintro o t ⟨ho, ht | ht | ht⟩
  · exact hstart o t ⟨ho, ht⟩
  · exact he o t (.inl ⟨ho, ht⟩)
  · by_cases hres : t = .reserve
    · exact he o t (.inl ⟨ho, hres⟩)
    · exact he o t (.inr ⟨(hrange o).mpr ho, ht, hres⟩)

end

-- == runs

lemma range_tiles (start m n : Nat) (h : 2 ^ m ∣ start) :
    Tiles (fun x => start ≤ x ∧ x < start + n * 2 ^ m)
      ((range n).map fun i => ⟨start + i * 2 ^ m, m⟩) := by
  refine ⟨?_, ?_⟩
  · intro b hb
    obtain ⟨i, -, rfl⟩ := mem_map.mp hb
    exact Nat.dvd_add h (Nat.dvd_mul_left _ _)
  intro x
  induction n with
  | zero => simp
  | succ n ih =>
    rw [range_succ, map_append, countP_append, ih]
    simp only [map_cons, map_nil, countP_cons, countP_nil,
      Block.covers_iff, decide_eq_true_eq, succ_mul]
    generalize n * 2 ^ m = a
    generalize 2 ^ m = q
    split <;> split <;> split <;> omega

lemma pagesOf_replicate {bs : List Block} (h : ∀ b ∈ bs, b.order = m) :
    pagesOf bs = bs.length * 2 ^ m := by
  induction bs with
  | nil => simp [pagesOf]
  | cons b bs ih =>
    rw [pagesOf, ih fun a ha => h a (mem_cons_of_mem _ ha), h b (by simp), length_cons]
    push_cast
    ring

lemma Initial.inv {n : Nat} (h : Initial c z n) : Inv c (freeBlocks c z) [] 0 z := by
  have horder : ∀ b ∈ freeBlocks c z, b.order = c.maxOrder - 1 := by
    intro b hb
    obtain ⟨i, -, rfl⟩ := mem_map.mp (h.blocks.mem_iff.mp hb)
    rfl
  have hlen : (freeBlocks c z).length = n := by
    rw [h.blocks.length_eq]
    simp
  refine ⟨⟨Perm.refl _, h.above, fun b => h.buddy b.start b.order⟩, ?_, ?_, ?_, ?_, ?_⟩
  · rw [append_nil]
    have ht := range_tiles c.zoneStartPfn (c.maxOrder - 1) n h.aligned
    rw [← h.spanned] at ht
    exact ht.perm h.blocks.symm
  · simp
  · intro b hb ho
    have hb := horder b hb
    omega
  · intro o
    rw [h.nr o]
    split
    · next ho =>
        have hall : (freeBlocks c z).countP (fun b => b.order = o) = n := by
          rw [← hlen, countP_eq_length]
          intro b hb
          simp [horder b hb, ho]
        rw [hall]
    next ho =>
      have hnone : (freeBlocks c z).countP (fun b => b.order = o) = 0 := by
        rw [countP_eq_zero]
        intro b hb
        simpa [horder b hb] using Ne.symm ho
      rw [hnone]
      rfl
  · rw [h.pages, pagesOf_replicate horder, hlen, h.spanned]
    push_cast
    ring

lemma Reached.inv {live : List Block} (h : Reached c z live) : ∃ F, Inv c F live 0 z := by
  induction h with
  | start hi => exact ⟨_, hi.inv⟩
  | alloc order t _ hsome ih =>
    obtain ⟨F, hinv⟩ := ih
    rcases rmqueue_found order hinv t with ⟨page, F', heq, hf⟩ | ⟨heq, -⟩
    · obtain rfl : _ = page := Option.some.inj (hsome.symm.trans heq)
      exact ⟨F', hf⟩
    · simp [heq] at hsome
  | fail order t _ hnone ih =>
    obtain ⟨F, hinv⟩ := ih
    rcases rmqueue_found order hinv t with ⟨page, F', heq, -⟩ | ⟨heq, -⟩
    · simp [heq] at hnone
    · rw [heq]
      exact ⟨F, hinv⟩
  | free b _ hb ih =>
    obtain ⟨F, hinv⟩ := ih
    exact freeOnePage_inv (hinv.of_perm (Perm.refl _) (perm_cons_erase hb))

-- == the counters

lemma order_of_mem_areaBlocks {o : Nat} (hb : b ∈ areaBlocks z o) : b.order = o :=
  (mem_areaBlocks.mp hb).1

lemma countP_order (z : Zone) (o : Nat) :
    ∀ n, ((range n).flatMap (areaBlocks z)).countP (fun b => b.order = o) =
      if o < n then (areaBlocks z o).length else 0 := by
  intro n
  induction n with
  | zero => simp
  | succ n ih =>
    rw [range_succ, flatMap_append, countP_append, ih, flatMap_singleton]
    by_cases ho : o = n
    · subst ho
      have hall : (areaBlocks z o).countP (fun b => b.order = o) = (areaBlocks z o).length := by
        rw [countP_eq_length]
        intro b hb
        simpa using order_of_mem_areaBlocks hb
      rw [hall, if_neg (lt_irrefl o), if_pos (lt_succ_self o), zero_add]
    have hnone : (areaBlocks z n).countP (fun b => b.order = o) = 0 := by
      rw [countP_eq_zero]
      intro b hb
      simpa [order_of_mem_areaBlocks hb] using Ne.symm ho
    have hiff : o < n + 1 ↔ o < n := by omega
    simp only [hnone, hiff, add_zero]

lemma pagesOf_append (bs bs' : List Block) : pagesOf (bs ++ bs') = pagesOf bs + pagesOf bs' := by
  induction bs with
  | nil => simp [pagesOf]
  | cons b bs ih =>
    rw [cons_append, pagesOf, pagesOf, ih]
    ring

lemma pagesOf_areas (hnr : ∀ o, z.nrFree o = (areaBlocks z o).length) :
    ∀ n, pagesOf ((range n).flatMap (areaBlocks z)) = shiftedSum z n := by
  intro n
  induction n with
  | zero => rfl
  | succ n ih =>
    rw [range_succ, flatMap_append, pagesOf_append, ih, shiftedSum, hnr n, flatMap_singleton,
      pagesOf_replicate fun b hb => order_of_mem_areaBlocks hb]

lemma Inv.nr_areas {k : Int}
    (h : Inv c F B k z) (o : Nat) : z.nrFree o = (areaBlocks z o).length := by
  rw [h.nr o, ← h.perm.countP_eq, freeBlocks, countP_order]
  split
  · rfl
  · next ho =>
      have hnil : areaBlocks z o = [] := by simp [areaBlocks, h.above o _ (not_lt.mp ho)]
      rw [hnil]
      rfl

-- == the results

/-- The free blocks and the blocks in use tile the zone, no two buddies are free,
the counters and the flags of the pages agree with the lists, and an allocation
fails only if there is no block for it. -/
theorem buddy_allocator_sound {c : Conf} {z : Zone} {live : List Block} (h : Reached c z live) :
    Tiles c.inZone (freeBlocks c z ++ live) ∧ (∀ b ∈ freeBlocks c z ++ live, b.order < c.maxOrder) ∧
      (∀ b ∈ freeBlocks c z, b.order < c.maxOrder - 1 → b.buddy ∉ freeBlocks c z) ∧
      (∀ o, z.nrFree o = (areaBlocks z o).length) ∧
      z.nrFreePages = shiftedSum z c.maxOrder ∧
      (∀ page o, z.pageBuddy page = true ∧ z.pagePrivate page = o ↔ ∃ t, page ∈ z.freeList o t) ∧
      ∀ order migratetype, migratetype ∈ [MigrateType.unmovable, .reclaimable, .movable] →
        (rmqueue c z order migratetype).2 = none →
        ∀ o t, order ≤ o → t ∈ [MigrateType.unmovable, .reclaimable, .movable, .reserve] →
          z.freeList o t = [] := by
  obtain ⟨F, hinv⟩ := h.inv
  have hF := hinv.of_perm hinv.perm.symm (Perm.refl live)
  refine ⟨hF.tiles, ?_, ?_, hinv.nr_areas, ?_, ?_, ?_⟩
  · exact forall_mem_append.mpr ⟨fun b hb => (mem_freeBlocks.mp hb).1, hF.order_lt⟩
  · intro b hb ho
    exact hF.apart b hb (by omega)
  · rw [hF.pages, add_zero]
    exact pagesOf_areas hinv.nr_areas c.maxOrder
  · intro page o
    rw [hF.buddy ⟨page, o⟩, mem_freeBlocks]
    refine ⟨fun hm => hm.2, fun ⟨t, ht⟩ => ⟨?_, t, ht⟩⟩
    by_contra ho
    simp [hinv.above o t (not_lt.mp ho)] at ht
  · intro order start hstart hnone o t ho ht
    by_cases hlt : o < c.maxOrder
    · rcases rmqueue_found order hinv start with ⟨page, F', heq, -⟩ | ⟨-, he⟩
      · simp [heq] at hnone
      · refine he o t ⟨⟨ho, hlt⟩, ?_⟩
        revert hstart ht
        cases start <;> cases t <;> simp [Tried, fallbacks]
    · exact hinv.above o t (not_lt.mp hlt)

def twoPages : Zone where
  freeList := fun o t => if o = 1 ∧ t = .movable then [0] else []
  nrFree := fun o => if o = 1 then 1 else 0
  nrFreePages := 2
  pageBuddy := fun page => page = 0
  pagePrivate := fun _ => 1
  pageblock := fun _ => .movable

def twoPagesConf : Conf := ⟨2, 1, false, 0, 2⟩

lemma twoPages_initial : Initial twoPagesConf twoPages 1 := by
  refine ⟨by decide, by decide, rfl, ?_, ?_, ?_, ?_, rfl⟩
  · exact Perm.refl [(⟨0, 1⟩ : Block)]
  · intro o t ho
    have hne : ¬(o = 1 ∧ t = .movable) := by
      have ho : 2 ≤ o := ho
      omega
    exact if_neg hne
  · intro page order
    show (decide (page = 0) = true ∧ 1 = order) ↔ (⟨page, order⟩ : Block) ∈ [⟨0, 1⟩]
    simp [eq_comm]
  · intro o
    rfl

/-- The block is split; then one page is in use and one free, and two pages at once are
not to be had. -/
theorem twoPages_sound :
    (rmqueue twoPagesConf twoPages 0 .unmovable).2 = some 0 ∧
    ∃ z, (rmqueue twoPagesConf twoPages 0 .unmovable).1 = z ∧
      Tiles twoPagesConf.inZone (freeBlocks twoPagesConf z ++ [⟨0, 0⟩]) ∧
      (∀ o, z.nrFree o = (areaBlocks z o).length) ∧
      z.nrFreePages = shiftedSum z twoPagesConf.maxOrder ∧
      (rmqueue twoPagesConf z 1 .movable).2 = none ∧ z.freeList 1 .reserve = [] := by
  have hpage : (rmqueue twoPagesConf twoPages 0 .unmovable).2 = some 0 := by decide
  obtain ⟨htiles, -, -, hnr, hpages, -, hfails⟩ :=
    buddy_allocator_sound (.alloc 0 .unmovable (.start twoPages_initial) hpage)
  have hnone : (rmqueue twoPagesConf (rmqueue twoPagesConf twoPages 0 .unmovable).1 1
      .movable).2 = none := by decide
  exact ⟨hpage, _, rfl, htiles, hnr, hpages, hnone,
    hfails 1 .movable (by decide) hnone 1 .reserve le_rfl (by decide)⟩

/-- An allocation from the reserve fails although there is a movable block. -/
theorem reserve_allocation_fails :
    Reached twoPagesConf twoPages [] ∧ (rmqueue twoPagesConf twoPages 0 .reserve).2 = none ∧
      twoPages.freeList 1 .movable = [0] :=
  ⟨.start twoPages_initial, by decide, by decide⟩

end BoardStack.Buddy
