/-
The region allocator of lib/bitmap.c: `__reg_op` and its callers.

A region is `2 ^ order` bits, aligned to their number. It lies inside one word
or is a sequence of whole words; one mask serves both (`mask_iff`), and what
the three operations do is read off it. `end` is an `int` and wraps
(`-fno-strict-overflow`), which happens at its last value if no region is free
and `bits + 2 ^ order` does not fit: the search goes on with a region that
ends behind the bitmap, and then in front of it (`none`). That is the only way
it can go wrong (`found_iff`).
-/
import BoardStack.Bitmap.Words

namespace BoardStack.Bitmap

open Base Vsprintf Function BitVec List Bool

variable {a : WordSize}

-- == model

/-- `REG_OP_*`. -/
inductive RegOp
  | isFree | alloc | release

/-- `mask` of `__reg_op`. -/
def regMask (a : WordSize) (pos order : Nat) : BitVec a.bits :=
  let index := pos / a.bits
  let offset := pos - index * a.bits
  let nbitsinlong := min (2 ^ order) a.bits
  let mask := 1#a.bits <<< (nbitsinlong - 1)
  (mask + (mask - 1#a.bits)) <<< offset

/-- `for (i = 0; i < n; i++)` over `bitmap[index + i]`. -/
def eachWord (f : BitVec a.bits → BitVec a.bits) (index : Nat) : Nat → Words a → Words a
  | 0, m => m
  | i + 1, m =>
    let m := eachWord f index i m
    update m (index + i) (f (m (index + i)))

def regOp (m : Words a) (pos order : Nat) : RegOp → Bool × Words a :=
  let index := pos / a.bits
  let nlongsReg := bitsToLongs a (2 ^ order)
  let mask := regMask a pos order
  fun
  | .isFree =>
    ((List.range nlongsReg).all fun i => m (index + i) &&& mask == 0, m)
  | .alloc => (false, eachWord (· ||| mask) index nlongsReg m)
  | .release => (false, eachWord (· &&& ~~~mask) index nlongsReg m)

def enomem : Int := 12

def ebusy : Int := 16

/-- `for (pos = 0; (end = pos + (1 << order)) <= bits; pos = end)`. -/
def findLoop (m : Words a) (bits order : Nat) : Nat → Int → Option (Int × Words a)
  | 0, _ => none
  | fuel + 1, pos =>
    let stop := int (pos + int (2 ^ order))
    if stop ≤ bits then
      if pos < 0 then none
      else if (regOp m pos.toNat order .isFree).1 then
        some (pos, (regOp m pos.toNat order .alloc).2)
      else findLoop m bits order fuel stop
    else some (-enomem, m)

def bitmapFindFreeRegion (m : Words a) (bits order : Nat) : Option (Int × Words a) :=
  findLoop m bits order (bits + 2) 0

def bitmapReleaseRegion (m : Words a) (pos order : Nat) : Words a := (regOp m pos order .release).2

def bitmapAllocateRegion (m : Words a) (pos order : Nat) : Int × Words a :=
  if (regOp m pos order .isFree).1 then (0, (regOp m pos order .alloc).2)
  else (-ebusy, m)

-- == regions

/-- `i` is a bit of the region. -/
def InRegion (pos order i : Nat) : Prop := pos ≤ i ∧ i < pos + 2 ^ order

instance (pos order i : Nat) : Decidable (InRegion pos order i) :=
  inferInstanceAs (Decidable (_ ∧ _))

def Free (m : Words a) (order pos : Nat) : Prop := ∀ i, InRegion pos order i → testBit m i = false

variable {m m' : Words a} {pos order bits i : Nat}

lemma bits_eq_pow (a : WordSize) : ∃ w, a.bits = 2 ^ w := by
  cases a with
  | w32 => exact ⟨5, rfl⟩
  | w64 => exact ⟨6, rfl⟩

lemma getLsbD_regMask {b : Nat} (hb : b < a.bits) :
    (regMask a pos order).getLsbD b = decide (pos % a.bits ≤ b ∧
        b < pos % a.bits + min (2 ^ order) a.bits) := by
  have hord := Nat.two_pow_pos order
  have hoff : pos - pos / a.bits * a.bits = pos % a.bits := by
    have hdiv := Nat.div_add_mod' pos a.bits
    omega
  obtain ⟨c, hc⟩ : ∃ c, min (2 ^ order) a.bits = c + 1 := ⟨min (2 ^ order) a.bits - 1, by omega⟩
  have hone : ∀ i, (1#a.bits <<< c).getLsbD i = decide (c = i) := by
    intro i
    rw [← twoPow_eq, getLsbD_twoPow, decide_eq_true (by omega), Bool.true_and]
  have hlow : ∀ i, (1#a.bits <<< c - 1#a.bits).getLsbD i = decide (i < c) :=
    fun i => getLsbD_lowMask a (by omega)
  have hmask : 1#a.bits <<< c + (1#a.bits <<< c - 1#a.bits)
      = 1#a.bits <<< c ||| (1#a.bits <<< c - 1#a.bits) := by
    refine add_eq_or_of_and_eq_zero _ _ (eq_of_getLsbD_eq fun i _ => ?_)
    rw [getLsbD_and, hone, hlow, getLsbD_zero, ← decide_and, decide_eq_false (by omega)]
  unfold regMask
  dsimp only
  rw [hoff, hc, Nat.add_sub_cancel, getLsbD_shiftLeft, decide_eq_true hb,
    Bool.true_and, hmask, getLsbD_or, hone, hlow, ← decide_or]
  by_cases hle : pos % a.bits ≤ b
  · rw [decide_eq_false (by omega), Bool.not_false, Bool.true_and]
    congr 1
    apply propext
    omega
  · rw [decide_eq_true (by omega), Bool.not_true, Bool.false_and, decide_eq_false (by omega)]

lemma mask_iff (h : 2 ^ order ∣ pos) :
    (pos / a.bits ≤ i / a.bits ∧ i / a.bits < pos / a.bits + bitsToLongs a (2 ^ order) ∧
        (regMask a pos order).getLsbD (i % a.bits) = true)
      ↔ InRegion pos order i := by
  have hW := bits_pos a
  have hord := Nat.two_pow_pos order
  have hdiv := Nat.div_add_mod' pos a.bits
  have hmod := Nat.mod_lt i hW
  rw [getLsbD_regMask hmod, decide_eq_true_eq, Nat.le_div_iff_mul_le hW,
    Nat.div_lt_iff_lt_mul hW, Nat.add_mul]
  unfold InRegion
  obtain ⟨w, hw⟩ := bits_eq_pow a
  rcases Nat.le_total order w with hle | hle
  · -- inside one word
    obtain ⟨c, hc⟩ := hw ▸ pow_dvd_pow 2 hle
    obtain ⟨q, rfl⟩ := h
    have hfit : 2 ^ order * q % a.bits + 2 ^ order ≤ a.bits := by
      have hq : q % c < c := Nat.mod_lt q (Nat.pos_of_ne_zero (by
        rintro rfl
        omega))
      have hmul := Nat.mul_le_mul_left (2 ^ order) (Nat.succ_le_of_lt hq)
      rw [hc, Nat.mul_mod_mul_left]
      rwa [Nat.mul_succ] at hmul
    have hlongs : bitsToLongs a (2 ^ order) = 1 := Nat.div_eq_of_lt_le (by omega) (by omega)
    rw [hlongs, one_mul, min_eq_left (by omega)]
    generalize 2 ^ order * q / a.bits = p at *
    have hplace : p * a.bits ≤ i → i < p * a.bits + a.bits → i = p * a.bits + i % a.bits := by
      intro h1 h2
      have hi : i / a.bits = p := Nat.div_eq_of_lt_le h1 (by rwa [Nat.succ_mul])
      rw [← hi]
      exact (Nat.div_add_mod' i a.bits).symm
    constructor
    · rintro ⟨h1, h2, h3⟩
      have := hplace h1 h2
      omega
    · rintro ⟨h1, h2⟩
      have := hplace (by omega) (by omega)
      omega
  · -- whole words
    obtain ⟨c, hc⟩ := pow_dvd_pow 2 hle
    rw [← hw] at hc
    have hzero : pos % a.bits = 0 := Nat.mod_eq_zero_of_dvd ((Dvd.intro c hc.symm).trans h)
    have hlongs : bitsToLongs a (2 ^ order) = c := by
      have hmul := mul_comm c a.bits
      exact Nat.div_eq_of_lt_le (by omega) (by rw [Nat.succ_mul]; omega)
    have hbig : a.bits ≤ 2 ^ order := by
      rw [hw]
      exact Nat.pow_le_pow_right (by decide) hle
    rw [hlongs, hzero, min_eq_right hbig, mul_comm c, ← hc]
    omega

-- == the three operations

lemma eachWord_eq (f : BitVec a.bits → BitVec a.bits) (index n : Nat) (m : Words a) (k : Nat) :
    eachWord f index n m k = if index ≤ k ∧ k < index + n then f (m k) else m k := by
  induction n with
  | zero => rw [eachWord, if_neg (by omega)]
  | succ n ih =>
    rw [eachWord]
    by_cases hk : k = index + n
    · subst hk
      rw [update_self, ih, if_neg (by omega), if_pos (by omega)]
    · rw [update_of_ne hk, ih]
      congr 1
      apply propext
      omega

lemma isFree_iff (h : 2 ^ order ∣ pos) :
    (regOp m pos order .isFree).1 = true ↔ Free m order pos := by
  show (all _ _) = true ↔ _
  simp only [all_eq_true, mem_range, beq_iff_eq]
  constructor
  · intro hall i hi
    obtain ⟨h1, h2, h3⟩ := (mask_iff (a := a) h).mpr hi
    have hword := hall (i / a.bits - pos / a.bits) (by omega)
    rw [Nat.add_sub_cancel' h1] at hword
    have hbit := congrArg (getLsbD · (i % a.bits)) hword
    simp only [getLsbD_and, h3, Bool.and_true] at hbit
    exact hbit.trans getLsbD_zero
  intro hfree j hj
  apply eq_of_getLsbD_eq
  intro b hb
  have hdiv : ((pos / a.bits + j) * a.bits + b) / a.bits = pos / a.bits + j := by
    rw [mul_comm, Nat.mul_add_div (bits_pos a), Nat.div_eq_of_lt hb, add_zero]
  have hmod : ((pos / a.bits + j) * a.bits + b) % a.bits = b := by
    rw [Nat.mul_add_mod_self_right, Nat.mod_eq_of_lt hb]
  rw [getLsbD_and]
  refine Eq.trans ?_ getLsbD_zero.symm
  by_cases hmask : (regMask a pos order).getLsbD b = true
  · have hin := hfree _ ((mask_iff (a := a) h).mp
      ⟨hdiv ▸ Nat.le_add_right _ _, by omega, hmod.symm ▸ hmask⟩)
    rw [testBit_eq hb rfl] at hin
    rw [hin, Bool.false_and]
  · rw [eq_false_iff.mpr hmask, Bool.and_false]

lemma testBit_eachWord (h : 2 ^ order ∣ pos) {f : BitVec a.bits → BitVec a.bits} {g : Bool → Bool}
    (hf : ∀ x b, (f x).getLsbD b = if (regMask a pos order).getLsbD b = true then g (x.getLsbD b)
        else x.getLsbD b) (i : Nat) :
    testBit (eachWord f (pos / a.bits) (bitsToLongs a (2 ^ order)) m) i
      = if InRegion pos order i then g (testBit m i) else testBit m i := by
  have hiff := mask_iff (a := a) (i := i) h
  unfold testBit
  rw [eachWord_eq]
  by_cases hword : pos / a.bits ≤ i / a.bits ∧ i / a.bits < pos / a.bits + bitsToLongs a (2 ^ order)
  · rw [if_pos hword, hf]
    congr 1
    exact propext ⟨fun hm => hiff.mp ⟨hword.1, hword.2, hm⟩, fun hin => (hiff.mpr hin).2.2⟩
  · rw [if_neg hword, if_neg fun hin => hword ⟨(hiff.mpr hin).1, (hiff.mpr hin).2.1⟩]

lemma testBit_alloc (h : 2 ^ order ∣ pos) (i : Nat) :
    testBit (regOp m pos order .alloc).2 i
      = if InRegion pos order i then true else testBit m i := by
  refine testBit_eachWord (g := fun _ => true) h (fun x b => ?_) i
  rw [getLsbD_or]
  split
  · rename_i hmask
    rw [hmask, Bool.or_true]
  · rename_i hmask
    rw [eq_false_iff.mpr hmask, Bool.or_false]

lemma testBit_release (h : 2 ^ order ∣ pos) (i : Nat) :
    testBit (bitmapReleaseRegion m pos order) i
      = if InRegion pos order i then false else testBit m i := by
  refine testBit_eachWord (g := fun _ => false) h (fun x b => ?_) i
  rw [getLsbD_and, getLsbD_not]
  split
  · rename_i hmask
    rw [hmask, Bool.not_true, Bool.and_false, Bool.and_false]
  rename_i hmask
  rw [eq_false_iff.mpr hmask, Bool.not_false, Bool.and_true]
  by_cases hb : b < a.bits
  · rw [decide_eq_true hb, Bool.and_true]
  · rw [getLsbD_of_ge _ _ (by omega), Bool.false_and]

lemma words_ext (h : ∀ i, testBit m i = testBit m' i) : m = m' := by
  funext k
  apply eq_of_getLsbD_eq
  intro b hb
  have hbit := h (k * a.bits + b)
  rwa [testBit_eq hb rfl, testBit_eq hb rfl] at hbit

lemma release_alloc (h : 2 ^ order ∣ pos) (hfree : Free m order pos) :
    bitmapReleaseRegion (regOp m pos order .alloc).2 pos order = m := by
  apply words_ext
  intro i
  rw [testBit_release h, testBit_alloc h]
  split
  · rename_i hin
    exact (hfree i hin).symm
  · rfl

-- == the search

/-- A region is free, or the last `end` is an `int`. -/
def Searchable (m : Words a) (bits order : Nat) : Prop :=
  bits + 2 ^ order < 2 ^ 31 ∨ ∃ p, 2 ^ order ∣ p ∧ p + 2 ^ order ≤ bits ∧ Free m order p

lemma int_pow (h : 2 ^ order < 2 ^ 31) : int (2 ^ order) = ((2 ^ order : Nat) : Int) := by
  have hord := Nat.two_pow_pos order
  rw [← Nat.cast_two, ← Nat.cast_pow]
  exact int_eq (by omega) (by omega)

/-- `end`, as long as it is an `int`. -/
lemma stop_eq {q : Nat} (hq : q.succ * 2 ^ order < 2 ^ 31) :
    int ((q * 2 ^ order : Nat) + int (2 ^ order)) = ((q.succ * 2 ^ order : Nat) : Int) := by
  have hnext := Nat.succ_mul q (2 ^ order)
  rw [int_pow (by omega), int_eq (by omega) (by omega)]
  omega

/-- If no region below is free, the `end` of the next one is an `int`. -/
lemma Searchable.stop_lt (h : Searchable m bits order) (hint : bits < 2 ^ 31) {q : Nat}
    (hq : q * 2 ^ order ≤ bits) (hbelow : ∀ p < q, ¬Free m order (p * 2 ^ order)) :
    q.succ * 2 ^ order < 2 ^ 31 := by
  have hnext := Nat.succ_mul q (2 ^ order)
  rcases h with hbits | ⟨_, ⟨p, rfl⟩, hfit, hfree⟩
  · omega
  · rw [mul_comm] at hfit hfree
    have hle : q * 2 ^ order ≤ p * 2 ^ order :=
      Nat.mul_le_mul_right _ (Nat.le_of_not_lt fun hlt => hbelow p hlt hfree)
    omega

/-- From a region on with none free below, the search ends at the lowest free one
or with `-ENOMEM`. -/
lemma findLoop_spec (hint : bits < 2 ^ 31) (hbits : Searchable m bits order) (fuel q : Nat)
    (hq : q * 2 ^ order ≤ bits) (hfuel : bits + 1 < q * 2 ^ order + fuel)
    (hbelow : ∀ p < q, ¬Free m order (p * 2 ^ order)) :
    (∃ p, findLoop m bits order fuel (q * 2 ^ order : Nat) = some (((p * 2 ^ order : Nat) : Int),
          (regOp m (p * 2 ^ order) order .alloc).2) ∧
      p * 2 ^ order + 2 ^ order ≤ bits ∧ Free m order (p * 2 ^ order) ∧
      ∀ p' < p, ¬Free m order (p' * 2 ^ order)) ∨
    (findLoop m bits order fuel (q * 2 ^ order : Nat) = some (-enomem, m) ∧
      ∀ p, p * 2 ^ order + 2 ^ order ≤ bits → ¬Free m order (p * 2 ^ order)) := by
  have hord := Nat.two_pow_pos order
  induction fuel generalizing q with
  | zero => omega
  | succ fuel ih =>
    have hnext := Nat.succ_mul q (2 ^ order)
    rw [findLoop, stop_eq (hbits.stop_lt hint hq hbelow)]
    by_cases hle : q.succ * 2 ^ order ≤ bits
    · rw [if_pos (by omega), if_neg (by omega), Int.toNat_natCast]
      by_cases hfree : Free m order (q * 2 ^ order)
      · rw [if_pos ((isFree_iff (Nat.dvd_mul_left _ _)).mpr hfree)]
        exact .inl ⟨q, rfl, by omega, hfree, hbelow⟩
      rw [if_neg fun h => hfree ((isFree_iff (Nat.dvd_mul_left _ _)).mp h)]
      refine ih q.succ hle (by omega) fun p hp => ?_
      rcases Nat.lt_succ_iff_lt_or_eq.mp hp with hlt | rfl
      · exact hbelow p hlt
      · exact hfree
    · rw [if_neg (by omega)]
      refine .inr ⟨rfl, fun p hp => hbelow p ?_⟩
      apply Nat.lt_of_mul_lt_mul_right (a := 2 ^ order)
      omega

def Found (m : Words a) (bits order : Nat) : Prop :=
  (∃ (pos : Nat) (m' : Words a), bitmapFindFreeRegion m bits order = some ((pos : Int), m') ∧
      (2 ^ order ∣ pos ∧ pos + 2 ^ order ≤ bits ∧ Free m order pos) ∧
      (∀ p, 2 ^ order ∣ p → p + 2 ^ order ≤ bits → Free m order p → pos ≤ p) ∧
      (∀ i, testBit m' i = if InRegion pos order i then true else testBit m i) ∧
      bitmapReleaseRegion m' pos order = m) ∨
  (bitmapFindFreeRegion m bits order = some (-enomem, m) ∧
    ∀ p, 2 ^ order ∣ p → p + 2 ^ order ≤ bits → ¬Free m order p)

lemma find_found (hint : bits < 2 ^ 31) (hbits : Searchable m bits order) :
    Found m bits order := by
  have hspec := findLoop_spec hint hbits (bits + 2) 0 (by omega) (by omega)
    (fun p hp => absurd hp (Nat.not_lt_zero p))
  rw [Nat.zero_mul] at hspec
  rcases hspec with ⟨p, hres, hfit, hfree, hmin⟩ | ⟨hres, hnone⟩
  · have hdvd : 2 ^ order ∣ p * 2 ^ order := Nat.dvd_mul_left _ _
    refine .inl ⟨p * 2 ^ order, _, hres, ⟨hdvd, hfit, hfree⟩, ?_,
      testBit_alloc hdvd, release_alloc hdvd hfree⟩
    rintro _ ⟨q, rfl⟩ - hq
    rw [mul_comm] at hq
    rw [mul_comm _ q]
    exact Nat.mul_le_mul_right _ (Nat.le_of_not_lt fun hlt => hmin q hlt hq)
  · refine .inr ⟨hres, ?_⟩
    rintro _ ⟨q, rfl⟩ hfit
    rw [mul_comm] at hfit ⊢
    exact hnone q hfit

/-- The last `end` wraps: the search goes on behind the bitmap, and below it. -/
lemma findLoop_wraps (hint : bits < 2 ^ 31) (horder : order ≤ 30)
    (hover : 2 ^ 31 ≤ bits + 2 ^ order)
    (hnone : ∀ p, p * 2 ^ order + 2 ^ order ≤ bits → ¬Free m order (p * 2 ^ order))
    (fuel q : Nat) (hq : q * 2 ^ order ≤ bits) (hfuel : bits + 1 < q * 2 ^ order + fuel) :
    ∀ r, findLoop m bits order fuel (q * 2 ^ order : Nat) = some r →
      ∃ pos : Nat, r.1 = pos ∧ bits < pos + 2 ^ order := by
  have hord := Nat.two_pow_pos order
  have hstep : 2 ^ order ≤ 2 ^ 30 := Nat.pow_le_pow_right (by decide) horder
  have hintOrder : int (2 ^ order) = ((2 ^ order : Nat) : Int) := int_pow (by omega)
  -- `2 ^ 31` is the end of a region
  obtain ⟨last, hlast⟩ := Nat.pow_dvd_pow 2 (by omega : order ≤ 31)
  rw [mul_comm] at hlast
  induction fuel generalizing q with
  | zero => omega
  | succ fuel ih =>
    have hnext := Nat.succ_mul q (2 ^ order)
    rw [findLoop]
    by_cases hle : q.succ * 2 ^ order ≤ bits
    · rw [stop_eq (by omega), if_pos (by omega), if_neg (by omega), Int.toNat_natCast,
        if_neg fun h => hnone q (by omega) ((isFree_iff (Nat.dvd_mul_left _ _)).mp h)]
      exact ih q.succ hle (by omega)
    · have hend : q.succ * 2 ^ order = 2 ^ 31 := by
        have hlt : q < last := Nat.lt_of_mul_lt_mul_right (a := 2 ^ order) (by omega)
        rcases Nat.lt_or_eq_of_le (Nat.succ_le_of_lt hlt) with hbelow | heq
        · have hroom : q.succ.succ * 2 ^ order ≤ last * 2 ^ order :=
            Nat.mul_le_mul_right _ hbelow
          rw [Nat.succ_mul] at hroom
          change q.succ * 2 ^ order + 2 ^ order ≤ _ at hroom
          omega
        · rw [heq, hlast]
      have hfirst : int ((q * 2 ^ order : Nat) + int (2 ^ order)) = -2 ^ 31 := by
        rw [hintOrder, ← Nat.cast_add, ← hnext, hend]
        decide
      intro r hr
      rw [hfirst, if_pos (by omega), if_neg (by omega)] at hr
      split_ifs at hr
      · cases hr
        exact ⟨q * 2 ^ order, rfl, by omega⟩
      · -- the next region is in front of the bitmap
        obtain ⟨fuel, rfl⟩ : ∃ n, fuel = n + 1 := ⟨fuel - 1, by omega⟩
        have hsecond : int (-2 ^ 31 + int (2 ^ order)) = -2 ^ 31 + (2 ^ order : Nat) := by
          rw [hintOrder, int_eq (by omega) (by omega)]
        rw [findLoop, hsecond, if_pos (by omega), if_pos (by omega)] at hr
        cases hr

/-- The search is right if and only if a region is free or the last `end` is an
`int`. -/
lemma found_iff (hint : bits < 2 ^ 31) (horder : 2 ^ order ≤ bits) :
    Found m bits order ↔ Searchable m bits order := by
  refine ⟨fun hfound => ?_, find_found hint⟩
  by_contra hnot
  obtain ⟨hover, hnone⟩ := not_or.mp hnot
  have hsmall : order ≤ 30 :=
    Nat.lt_succ_iff.mp ((Nat.pow_lt_pow_iff_right (by decide : 1 < 2)).mp (horder.trans_lt hint))
  have hwraps := findLoop_wraps (m := m) hint hsmall (not_lt.mp hover)
    (fun p hfit hfree => hnone ⟨_, Nat.dvd_mul_left _ _, hfit, hfree⟩) (bits + 2) 0
    (by omega) (by omega)
  rw [Nat.zero_mul] at hwraps
  rcases hfound with ⟨pos, m', hres, ⟨-, hfit, -⟩, -⟩ | ⟨hres, -⟩
  · obtain ⟨p, hp, hbehind⟩ := hwraps _ hres
    obtain rfl : pos = p := Int.ofNat.inj hp
    omega
  · obtain ⟨p, hp, -⟩ := hwraps _ hres
    simp only [enomem] at hp
    omega

-- == whole runs

/-- A call that meets its condition, with the regions that are live. -/
inductive Step (bits : Nat) (m : Words a) (live : List (Nat × Nat)) :
    Words a → List (Nat × Nat) → Prop
  | found {m' : Words a} {pos order : Nat} :
    2 ^ order ≤ bits → Searchable m bits order →
    bitmapFindFreeRegion m bits order = some ((pos : Int), m') →
    Step bits m live m' ((pos, order) :: live)
  | full {m' : Words a} {order : Nat} :
    2 ^ order ≤ bits → Searchable m bits order →
    bitmapFindFreeRegion m bits order = some (-enomem, m') →
    Step bits m live m' live
  | allocated {m' : Words a} {pos order : Nat} :
    2 ^ order ∣ pos → pos + 2 ^ order ≤ bits →
    bitmapAllocateRegion m pos order = (0, m') →
    Step bits m live m' ((pos, order) :: live)
  | busy {m' : Words a} {pos order : Nat} :
    2 ^ order ∣ pos → pos + 2 ^ order ≤ bits →
    bitmapAllocateRegion m pos order = (-ebusy, m') →
    Step bits m live m' live
  | released {r : Nat × Nat} : r ∈ live →
    Step bits m live (bitmapReleaseRegion m r.1 r.2) (live.erase r)

def Run (bits : Nat) : Words a × List (Nat × Nat) → Words a × List (Nat × Nat) → Prop :=
  Relation.ReflTransGen fun s t => Step bits s.1 s.2 t.1 t.2

def Apart (r s : Nat × Nat) : Prop := ∀ i, ¬(InRegion r.1 r.2 i ∧ InRegion s.1 s.2 i)

structure LiveInv (m : Words a) (live : List (Nat × Nat)) : Prop where
  set : ∀ r ∈ live, ∀ i, InRegion r.1 r.2 i → testBit m i = true
  aligned : ∀ r ∈ live, 2 ^ r.2 ∣ r.1
  apart : live.Pairwise Apart

variable {live live' : List (Nat × Nat)}

lemma LiveInv.alloc (h : LiveInv m live) (hdvd : 2 ^ order ∣ pos) (hfree : Free m order pos)
    (hm' : ∀ i, testBit m' i = if InRegion pos order i then true else testBit m i) :
    LiveInv m' ((pos, order) :: live) := by
  refine ⟨?_, forall_mem_cons.mpr ⟨hdvd, h.aligned⟩, ?_⟩
  · intro r hr i hi
    rw [hm']
    rcases mem_cons.mp hr with rfl | hr
    · rw [if_pos hi]
    · rw [h.set r hr i hi, ite_self]
  · refine pairwise_cons.mpr ⟨fun r hr i hi => ?_, h.apart⟩
    have hset := h.set r hr i hi.2
    simp [hfree i hi.1] at hset

lemma LiveInv.release (h : LiveInv m live) {r : Nat × Nat} (hr : r ∈ live) :
    LiveInv (bitmapReleaseRegion m r.1 r.2) (live.erase r) := by
  have hsymm : ∀ {r s : Nat × Nat}, Apart r s → Apart s r := fun hrs i hi => hrs i hi.symm
  obtain ⟨hother, hrest⟩ := pairwise_cons.mp (((perm_cons_erase hr).pairwise_iff hsymm).mp h.apart)
  refine ⟨?_, fun s hs => h.aligned s (mem_of_mem_erase hs), hrest⟩
  intro s hs i hi
  rw [testBit_release (h.aligned r hr), if_neg fun hin => hother s hs i ⟨hin, hi⟩]
  exact h.set s (mem_of_mem_erase hs) i hi

lemma LiveInv.step (hint : bits < 2 ^ 31) (h : LiveInv m live)
    (hstep : Step bits m live m' live') : LiveInv m' live' := by
  cases hstep with
  | found _ hbits hres =>
    rcases find_found hint hbits with
      ⟨p, m1, hp, ⟨hdvd, -, hfree⟩, -, hset, -⟩ | ⟨hp, -⟩
    · simp only [hp, Option.some.injEq, Prod.mk.injEq, Int.natCast_inj] at hres
      obtain ⟨rfl, rfl⟩ := hres
      exact h.alloc hdvd hfree hset
    · simp only [hp, Option.some.injEq, Prod.mk.injEq, enomem] at hres
      omega
  | full _ hbits hres =>
    rcases find_found hint hbits with ⟨p, m1, hp, -⟩ | ⟨hp, -⟩
    · simp only [hp, Option.some.injEq, Prod.mk.injEq, enomem] at hres
      omega
    · rw [hp] at hres
      cases hres
      exact h
  | allocated hdvd _ hres =>
    unfold bitmapAllocateRegion at hres
    split at hres
    · rename_i hfree
      cases hres
      exact h.alloc hdvd ((isFree_iff hdvd).mp hfree) (testBit_alloc hdvd)
    · cases hres
  | busy _ _ hres =>
    unfold bitmapAllocateRegion at hres
    split at hres
    · cases hres
    · cases hres
      exact h
  | released hr => exact h.release hr

lemma LiveInv.run (hint : bits < 2 ^ 31) {s t : Words a × List (Nat × Nat)}
    (h : LiveInv s.1 s.2) (hrun : Run bits s t) : LiveInv t.1 t.2 := by
  induction hrun with
  | refl => exact h
  | tail _ hstep ih => exact ih.step hint hstep

/-- The allocator finds the lowest free region, and takes exactly its bits, if and
only if a region is free or the `int` behind the last one is one; over any run of
such calls the live regions are apart. -/
theorem regions_allocated_iff (a : WordSize) (bits : Nat) (hint : bits < 2 ^ 31) :
    (∀ (m : Words a) (order : Nat), 2 ^ order ≤ bits →
      (Found m bits order ↔ Searchable m bits order)) ∧
    ∀ (m m' : Words a) (live : List (Nat × Nat)),
      Run bits (m, []) (m', live) → live.Pairwise Apart := by
  refine ⟨fun m order horder => found_iff hint horder, fun m m' live hrun => ?_⟩
  have hinit : LiveInv m [] := ⟨fun _ hr => (not_mem_nil hr).elim,
      fun _ hr => (not_mem_nil hr).elim, List.Pairwise.nil⟩
  exact (hinit.run hint (s := (m, [])) hrun).apart

/-- No bit is set. -/
def allClear : Words .w32 := fun _ => 0

/-- The first eight bits are. -/
def firstTaken : Words .w32 := (regOp allClear 0 3 .alloc).2

/-- Two regions of eight bits, one behind the other. -/
theorem twoRegions_apart : Found allClear 64 3 ∧ [(8, 3), (0, 3)].Pairwise Apart := by
  obtain ⟨hfound, hruns⟩ := regions_allocated_iff .w32 64 (by decide)
  refine ⟨(hfound allClear 3 (by decide)).mpr (.inl (by decide)), ?_⟩
  have hfirst : Step 64 allClear [] firstTaken [(0, 3)] :=
    .allocated (by decide) (by decide) (if_pos (by decide))
  have hsecond : Step 64 firstTaken [(0, 3)] (regOp firstTaken 8 3 .alloc).2 [(8, 3), (0, 3)] :=
    .allocated (by decide) (by decide) (if_pos (by decide))
  have hrun : Run 64 (allClear, []) ((regOp firstTaken 8 3 .alloc).2, [(8, 3), (0, 3)]) :=
    .tail (b := (firstTaken, [(0, 3)])) (.single hfirst) hsecond
  exact hruns allClear _ _ hrun

/-- `2 ^ 31 - 1` bits of which the first is set. -/
def firstSet : Words .w32 := fun k => if k = 0 then 1 else 0

/-- No region of `2 ^ 30` bits is free, but one that ends behind the bitmap is
taken. -/
theorem last_region_taken :
    (∀ p, 2 ^ 30 ∣ p → p + 2 ^ 30 ≤ 2 ^ 31 - 1 → ¬Free firstSet 30 p) ∧
      (bitmapFindFreeRegion firstSet (2 ^ 31 - 1) 30).map Prod.fst = some (2 ^ 30) := by
  have hbit : testBit firstSet 0 = true := by decide
  have hnone : ¬Free firstSet 30 0 := fun h => by
    simp [h 0 ⟨le_rfl, by decide⟩] at hbit
  refine ⟨?_, ?_⟩
  · rintro _ ⟨q, rfl⟩ hfit hfree
    obtain rfl : q = 0 := by omega
    exact hnone hfree
  have hfree : Free firstSet 30 (2 ^ 30) := by
    intro i hi
    have hi0 : i / WordSize.w32.bits ≠ 0 := by
      have hlo := hi.1
      show i / 32 ≠ 0
      omega
    unfold testBit firstSet
    rw [if_neg hi0]
    exact getLsbD_zero
  have h0 : (regOp firstSet 0 30 .isFree).1 = false :=
    eq_false_iff.mpr fun h => hnone ((isFree_iff ⟨0, rfl⟩).mp h)
  have h1 : (regOp firstSet (2 ^ 30) 30 .isFree).1 = true := (isFree_iff (dvd_refl _)).mpr hfree
  have e0 : int (0 + int (2 ^ 30)) = 2 ^ 30 := by decide
  have e1 : int (2 ^ 30 + int (2 ^ 30)) = -2 ^ 31 := by decide
  unfold bitmapFindFreeRegion
  rw [findLoop, e0, if_pos (by decide), if_neg (by decide), Int.toNat_zero, h0,
    if_neg Bool.false_ne_true, findLoop, e1, if_pos (by decide),
    if_neg (by decide), show ((2 : Int) ^ 30).toNat = 2 ^ 30 by decide, h1, if_pos rfl]
  rfl

end BoardStack.Bitmap
