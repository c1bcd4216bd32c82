/-
Huge page reservations: the list of reserved regions (mm/hugetlb.c).

A reservation is made in two steps. `region_chg` says how many pages of `[f, t)`
are not yet reserved, and makes sure that the list has a region that
`region_add` can then grow: where there is none it inserts an empty one. If the
reservation is given up in between, the empty region stays.

The regions never touch: each one ends before the next begins, empty ones
included. With that the loops count right although they round the interval out
to the regions at its ends, and the region `region_chg` left is the one that
`region_add` finds. `long` has `w + 1` bits; the counts are exact for intervals
that start at a page number, that is, not below 0.
-/
import BoardStack.Base.CInt
import BoardStack.Base.Count

namespace BoardStack.Hugetlb

open Base List

-- == the routines

/-- `struct file_region`, without its link. -/
structure FileRegion where
  from_ : Int
  to_ : Int
deriving DecidableEq

/-- Locate the region we are either in or before: the regions passed, and those
from it on. If there are none of these, the loop ends at the list head. -/
def locate (f : Int) : List FileRegion → List FileRegion × List FileRegion
  | [] => ([], [])
  | rg :: rest =>
    if f ≤ rg.to_ then ([], rg :: rest)
    else ((rg :: (locate f rest).1), (locate f rest).2)

/-- Consume the regions we overlap with: our new end, and the regions behind
it. -/
def consume (t : Int) : List FileRegion → Int × List FileRegion
  | [] => (t, [])
  | rg :: rest =>
    if rg.from_ > t then (t, rg :: rest)
    else consume (if rg.to_ > t then rg.to_ else t) rest

/-- `region_add`; there is no result when it takes the list head for a region.
The first region is the one reused, also when it begins behind `t`. -/
def regionAdd (head : List FileRegion) (f t : Int) : Option (List FileRegion) :=
  match locate f head with
  | (_, []) => none
  | (before, rg :: rest) =>
    let f := if f > rg.from_ then rg.from_ else f
    let (t, rest) := if rg.from_ > t then (t, rest)
      else consume (if rg.to_ > t then rg.to_ else t) rest
    some (before ++ ⟨f, t⟩ :: rest)

/-- The counting loop of `region_chg`. -/
def chgLoop (w : Nat) (chg t : Int) : List FileRegion → Int
  | [] => chg
  | rg :: rest =>
    if rg.from_ > t then chg
    else if rg.to_ > t then
      let chg := signed w (chg + signed w (rg.to_ - t))
      chgLoop w (signed w (chg - signed w (rg.to_ - rg.from_))) rg.to_ rest
    else chgLoop w (signed w (chg - signed w (rg.to_ - rg.from_))) t rest

def enomem : Int := -12

/-- `region_chg`: the number returned and the list left. `mem` says whether
`kmalloc` finds memory. -/
def regionChg (w : Nat) (mem : Bool) (head : List FileRegion) (f t : Int) : Int × List FileRegion :=
  let (before, rest) := locate f head
  let fresh := if mem then (signed w (t - f), before ++ ⟨f, f⟩ :: rest)
    else (enomem, head)
  match rest with
  | [] => fresh
  | rg :: _ =>
    if t < rg.from_ then fresh
    else
      let f := if f > rg.from_ then rg.from_ else f
      (chgLoop w (signed w (t - f)) t rest, head)

def dropLoop (w : Nat) (chg : Int) : List FileRegion → Int
  | [] => chg
  | rg :: rest =>
    dropLoop w (signed w (chg + signed w (rg.to_ - rg.from_))) rest

def regionTruncate (w : Nat) (head : List FileRegion) (end_ : Int) : Int × List FileRegion :=
  match locate end_ head with
  | (_, []) => (0, head)
  | (before, rg :: rest) =>
    if end_ > rg.from_ then
      (dropLoop w (signed w (rg.to_ - end_)) rest, before ++ [⟨rg.from_, end_⟩])
    else (dropLoop w 0 (rg :: rest), before)

-- == what is reserved

def covered (head : List FileRegion) (x : Int) : Bool :=
  head.any fun rg => decide (rg.from_ ≤ x ∧ x < rg.to_)

/-- Sorted and disjoint; moreover no region touches the next. -/
structure Apart (w : Nat) (head : List FileRegion) : Prop where
  sorted : head.Pairwise fun a b => a.to_ < b.from_
  nonneg : ∀ rg ∈ head, 0 ≤ rg.from_
  le : ∀ rg ∈ head, rg.from_ ≤ rg.to_
  lt : ∀ rg ∈ head, rg.to_ < 2 ^ w

variable {w : Nat} {head before rest : List FileRegion} {rg : FileRegion} {f t x : Int}

lemma covered_iff : covered head x = true ↔ ∃ rg ∈ head, rg.from_ ≤ x ∧ x < rg.to_ := by
  unfold covered
  simp

@[simp] lemma covered_nil : covered [] x = false := rfl

@[simp] lemma covered_cons : covered (rg :: rest) x
    = (decide (rg.from_ ≤ x ∧ x < rg.to_) || covered rest x) := rfl

@[simp] lemma covered_append :
    covered (before ++ rest) x = (covered before x || covered rest x) := by
  unfold covered
  rw [any_append]

lemma covered_eq_false (h : ∀ rg ∈ head, rg.to_ ≤ x ∨ x < rg.from_) : covered head x = false := by
  rw [Bool.eq_false_iff]
  intro hc
  obtain ⟨rg, hrg, hin⟩ := covered_iff.mp hc
  have := h rg hrg
  omega

lemma covered_before (h : ∀ rg ∈ before, rg.to_ ≤ f) (hx : f ≤ x) : covered before x = false :=
  covered_eq_false fun rg hrg => .inl ((h rg hrg).trans hx)

lemma covered_behind (h : ∀ rg ∈ rest, t ≤ rg.from_) (hx : x < t) : covered rest x = false :=
  covered_eq_false fun rg hrg => .inr (hx.trans_le (h rg hrg))

lemma Apart.nil : Apart w [] :=
  ⟨.nil, forall_mem_nil _, forall_mem_nil _, forall_mem_nil _⟩

lemma Apart.of_sublist {head' : List FileRegion} (h : Apart w head)
    (hsub : head'.Sublist head) : Apart w head' :=
  ⟨h.sorted.sublist hsub, fun rg hrg => h.nonneg rg (hsub.subset hrg),
    fun rg hrg => h.le rg (hsub.subset hrg), fun rg hrg => h.lt rg (hsub.subset hrg)⟩

lemma Apart.tail (h : Apart w (rg :: rest)) : Apart w rest :=
  h.of_sublist (sublist_cons_self rg rest)

lemma Apart.right (h : Apart w (before ++ rest)) : Apart w rest :=
  h.of_sublist (sublist_append_right before rest)

lemma Apart.head_lt (h : Apart w (rg :: rest)) : ∀ x ∈ rest, rg.to_ < x.from_ :=
  (pairwise_cons.mp h.sorted).1

lemma Apart.from_le (h : Apart w (rg :: rest)) {a : Int}
    (ha : a ≤ rg.from_) : ∀ x ∈ rg :: rest, a ≤ x.from_ := by
  have hle := h.le rg mem_cons_self
  refine forall_mem_cons.mpr ⟨ha, fun x hx => ?_⟩
  have hx' := h.head_lt x hx
  omega

lemma Apart.covered_below (h : Apart w (rg :: rest)) (hx : x < rg.from_) :
    covered (rg :: rest) x = false :=
  covered_behind (h.from_le le_rfl) hx

lemma covered_here (hle : rg.from_ ≤ x) (hlt : x < rg.to_) : covered (rg :: rest) x = true := by
  rw [covered_cons, decide_eq_true ⟨hle, hlt⟩, Bool.true_or]

lemma covered_above (hx : rg.to_ ≤ x) : covered (rg :: rest) x = covered rest x := by
  rw [covered_cons, decide_eq_false fun h => by omega, Bool.false_or]

lemma Apart.join (hb : Apart w before) (hr : Apart w rest) (hnonneg : 0 ≤ rg.from_)
    (hle : rg.from_ ≤ rg.to_) (hlt : rg.to_ < 2 ^ w) (hbefore : ∀ x ∈ before, x.to_ < rg.from_)
    (hrest : ∀ x ∈ rest, rg.to_ < x.from_) :
    Apart w (before ++ rg :: rest) := by
  have hall : ∀ {P : FileRegion → Prop}, (∀ x ∈ before, P x) → P rg →
      (∀ x ∈ rest, P x) → ∀ x ∈ before ++ rg :: rest, P x :=
    fun h1 h2 h3 => forall_mem_append.mpr ⟨h1, forall_mem_cons.mpr ⟨h2, h3⟩⟩
  refine ⟨?_, hall hb.nonneg hnonneg hr.nonneg, hall hb.le hle hr.le, hall hb.lt hlt hr.lt⟩
  rw [pairwise_append, pairwise_cons]
  refine ⟨hb.sorted, ⟨hrest, hr.sorted⟩, fun a ha => ?_⟩
  have ha' := hbefore a ha
  refine forall_mem_cons.mpr ⟨ha', fun b hb' => ?_⟩
  have hb'' := hrest b hb'
  omega

-- == locate

lemma locate_spec (f : Int) (head : List FileRegion) :
    ∃ before rest, locate f head = (before, rest) ∧ head = before ++ rest ∧
      (∀ x ∈ before, x.to_ < f) ∧ ∀ rg ∈ rest.head?, f ≤ rg.to_ := by
  induction head with
  | nil => exact ⟨[], [], rfl, rfl, by simp, by simp⟩
  | cons first head ih =>
    obtain ⟨before, rest, hrun, hhead, hbefore, hfound⟩ := ih
    unfold locate
    by_cases hf : f ≤ first.to_
    · rw [if_pos hf]
      exact ⟨[], first :: head, rfl, rfl, by simp, by simpa using hf⟩
    · rw [if_neg hf, hrun]
      exact ⟨first :: before, rest, rfl, by rw [hhead]; rfl,
        forall_mem_cons.mpr ⟨by omega, hbefore⟩, hfound⟩

/-- What there is to know where the located region stands. -/
structure Located (w : Nat) (head : List FileRegion) (f : Int)
    (before : List FileRegion) (rg : FileRegion) (rest : List FileRegion) :
    Prop where
  run : locate f head = (before, rg :: rest)
  list : head = before ++ rg :: rest
  below : ∀ x ∈ before, x.to_ < f
  found : f ≤ rg.to_
  left : Apart w before
  here : 0 ≤ rg.from_ ∧ rg.from_ ≤ rg.to_ ∧ rg.to_ < 2 ^ w
  right : Apart w rest
  apart : ∀ x ∈ before, x.to_ < rg.from_
  behind : ∀ x ∈ rest, rg.to_ < x.from_

lemma Apart.locate (h : Apart w head) (f : Int) :
    (∃ before rg rest, Located w head f before rg rest) ∨
    (locate f head = (head, []) ∧ ∀ x ∈ head, x.to_ < f) := by
  obtain ⟨before, rest, hrun, hhead, hbelow, hfound⟩ := locate_spec f head
  cases rest with
  | nil =>
    rw [append_nil] at hhead
    subst hhead
    exact .inr ⟨hrun, hbelow⟩
  | cons rg rest =>
    left
    have hapart := h.sorted
    rw [hhead, pairwise_append] at hapart
    have hmem : rg ∈ head := by
      rw [hhead]
      exact mem_append_right before mem_cons_self
    rw [hhead] at h
    exact ⟨before, rg, rest, hrun, hhead, hbelow, hfound rg rfl,
      h.of_sublist (sublist_append_left before _),
      ⟨h.nonneg rg (hhead ▸ hmem), h.le rg (hhead ▸ hmem), h.lt rg (hhead ▸ hmem)⟩,
      h.right.tail, fun x hx => hapart.2.2 x hx rg mem_cons_self,
      h.right.head_lt⟩

-- == region_add

lemma consume_spec {a : Int} (rest : List FileRegion) :
    ∀ t, Apart w rest → a ≤ t → t < 2 ^ w → (∀ x ∈ rest, a ≤ x.from_) →
      ∃ t' rest', consume t rest = (t', rest') ∧ t ≤ t' ∧ t' < 2 ^ w ∧
        Apart w rest' ∧ (∀ x ∈ rest', t' < x.from_) ∧
        ∀ x, (a ≤ x ∧ x < t' ∨ covered rest' x = true) ↔
          (a ≤ x ∧ x < t ∨ covered rest x = true) := by
  induction rest with
  | nil =>
    intro t _ hat hlt _
    exact ⟨t, [], rfl, le_rfl, hlt, .nil, forall_mem_nil _, fun _ => Iff.rfl⟩
  | cons rg rest ih =>
    intro t hrest hat hlt ha
    have harg : a ≤ rg.from_ := ha rg mem_cons_self
    have hend : rg.to_ < 2 ^ w := hrest.lt rg mem_cons_self
    rw [consume]
    by_cases hbreak : rg.from_ > t
    · rw [if_pos hbreak]
      exact ⟨t, rg :: rest, rfl, le_rfl, hlt, hrest, hrest.from_le hbreak, fun _ => Iff.rfl⟩
    rw [if_neg hbreak, ← max_def_lt]
    obtain ⟨t', rest', hrun, htt, hlt', hapart, hbehind, hcover⟩ :=
      ih (max t rg.to_) hrest.tail (by omega) (by omega) fun x hx => ha x (mem_cons_of_mem rg hx)
    refine ⟨t', rest', hrun, by omega, hlt', hapart, hbehind, ?_⟩
    intro x
    rw [hcover, covered_cons, Bool.or_eq_true, decide_eq_true_eq, ← or_assoc]
    exact or_congr_left (by omega)

/-- There is a region that `region_add` can grow. -/
def Ready (head : List FileRegion) (f t : Int) : Prop :=
  ∃ before rg rest, locate f head = (before, rg :: rest) ∧ rg.from_ ≤ t

lemma regionAdd_spec (h : Apart w head) (hready : Ready head f t)
    (hf : 0 ≤ f) (hft : f ≤ t) (ht : t < 2 ^ w) :
    ∃ head', regionAdd head f t = some head' ∧ Apart w head' ∧ ∀ x, covered head' x = true ↔
        covered head x = true ∨ f ≤ x ∧ x < t := by
  obtain ⟨before, rg, rest, hrun, hrg⟩ := hready
  obtain ⟨before', rg', rest', hl⟩ | ⟨hnone, -⟩ := h.locate f
  swap
  · rw [hnone] at hrun
    cases (Prod.ext_iff.mp hrun).2
  rw [hl.run] at hrun
  obtain ⟨rfl, hcons⟩ := Prod.ext_iff.mp hrun
  obtain ⟨rfl, rfl⟩ := List.cons.inj hcons
  obtain ⟨hnonneg, hle, hlt⟩ := hl.here
  have hfound := hl.found
  have hnear : ¬rg'.from_ > t := by omega
  unfold regionAdd
  rw [hl.run]
  dsimp only
  -- the two ends, rounded out
  obtain ⟨f', hf'⟩ : ∃ f', f' = min rg'.from_ f := ⟨_, rfl⟩
  rw [if_neg hnear, ← max_def_lt, ← min_def_lt, ← hf']
  obtain ⟨t', rest'', hrun', htt, hlt', hapart, hbehind, hcover⟩ :=
    consume_spec (a := f') rest' (max t rg'.to_) hl.right (by omega) (by omega) (by
      intro x hx
      have hx' := hl.behind x hx
      omega)
  rw [hrun']
  refine ⟨before' ++ ⟨f', t'⟩ :: rest'', rfl, ?_, ?_⟩
  · refine hl.left.join hapart (show 0 ≤ f' by omega) (show f' ≤ t' by omega) hlt' ?_ hbehind
    intro x hx
    have h1 := hl.below x hx
    have h2 := hl.apart x hx
    show x.to_ < f'
    omega
  intro x
  have hx := hcover x
  rw [hl.list, covered_append, covered_append, covered_cons, covered_cons,
    Bool.or_eq_true, Bool.or_eq_true, Bool.or_eq_true, Bool.or_eq_true,
    decide_eq_true_eq, decide_eq_true_eq, hx]
  have hunion : f' ≤ x ∧ x < max t rg'.to_ ↔
      (rg'.from_ ≤ x ∧ x < rg'.to_) ∨ f ≤ x ∧ x < t := by omega
  rw [hunion]
  simp only [or_assoc, or_comm, or_left_comm]

-- == region_chg

/-- The counting loop on unbounded integers. -/
def chgExact (chg t : Int) : List FileRegion → Int
  | [] => chg
  | rg :: rest =>
    if rg.from_ > t then chg
    else if rg.to_ > t then
      chgExact (chg + (rg.to_ - t) - (rg.to_ - rg.from_)) rg.to_ rest
    else chgExact (chg - (rg.to_ - rg.from_)) t rest

lemma chgLoop_eq (rest : List FileRegion) : ∀ chg t,
    chgLoop w (signed w chg) t rest = signed w (chgExact chg t rest) := by
  induction rest with
  | nil =>
    intro chg t
    rfl
  | cons rg rest ih =>
    intro chg t
    rw [chgLoop, chgExact]
    split_ifs
    · rfl
    · dsimp only
      rw [signed_add_signed, signed_sub_signed, ih]
    · rw [signed_sub_signed, ih]

section

variable {a b : Int} (hrest : Apart w (rg :: rest))
include hrest

lemma Apart.count_below (hb : b ≤ rg.from_) : countIn (covered (rg :: rest)) a b = 0 :=
  countIn_of_not fun _ _ hx => hrest.covered_below (by omega)

lemma Apart.count_here (ha : a ≤ rg.from_) (hb : rg.from_ ≤ b) (hle : b ≤ rg.to_) :
    countIn (covered (rg :: rest)) a b = b - rg.from_ := by
  rw [← countIn_add ha hb, hrest.count_below le_rfl, zero_add]
  exact countIn_of_forall hb fun x hx hx' => covered_here hx (by omega)

lemma Apart.count_cons (ha : a ≤ rg.from_) (hb : rg.to_ ≤ b) :
    countIn (covered (rg :: rest)) a b = rg.to_ - rg.from_ + countIn (covered rest) rg.to_ b := by
  have hle := hrest.le rg mem_cons_self
  rw [← countIn_add (ha.trans hle) hb, hrest.count_here ha hle le_rfl]
  exact congrArg _ (countIn_congr fun x hx _ => covered_above hx)

end

lemma chgExact_eq (rest : List FileRegion) : ∀ chg t a, Apart w rest →
    a ≤ t → (∀ x ∈ rest, a ≤ x.from_) →
    chgExact chg t rest = chg - countIn (covered rest) a t := by
  induction rest with
  | nil =>
    intro chg t a _ _ _
    rw [chgExact, countIn_of_not fun _ _ _ => covered_nil, sub_zero]
  | cons rg rest ih =>
    intro chg t a hrest hat ha
    have harg : a ≤ rg.from_ := ha rg mem_cons_self
    have hbehind : ∀ x ∈ rest, rg.to_ ≤ x.from_ := fun x hx => le_of_lt (hrest.head_lt x hx)
    rw [chgExact]
    split_ifs with hbreak hbeyond
    · rw [hrest.count_below (by omega), sub_zero]
    · rw [ih _ _ rg.to_ hrest.tail le_rfl hbehind, countIn_of_not fun x h1 h2 => by omega,
        hrest.count_here harg (by omega) (by omega)]
      omega
    · rw [ih _ _ rg.to_ hrest.tail (by omega) hbehind, hrest.count_cons harg (by omega)]
      omega

lemma countIn_covered_append (hbefore : ∀ x ∈ before, x.to_ < f) :
    countIn (fun x => !covered (before ++ rest) x) f t
      = countIn (fun x => !covered rest x) f t := by
  apply countIn_congr
  intro x hx _
  rw [covered_append, covered_before (f := f) ?_ hx, Bool.false_or]
  intro rg hrg
  exact le_of_lt (hbefore rg hrg)

lemma locate_fresh (hbefore : ∀ x ∈ before, x.to_ < f) (rest : List FileRegion) :
    locate f (before ++ ⟨f, f⟩ :: rest) = (before, ⟨f, f⟩ :: rest) := by
  induction before with
  | nil => rw [nil_append, locate, if_pos le_rfl]
  | cons y before ih =>
    have hy := hbefore y mem_cons_self
    rw [cons_append, locate, if_neg (by omega), ih]
    intro x hx
    exact hbefore x (mem_cons_of_mem y hx)

lemma Apart.fresh (h : Apart w (before ++ rest)) (hf : 0 ≤ f) (hft : f ≤ t) (ht : t < 2 ^ w)
    (hbefore : ∀ x ∈ before, x.to_ < f) (hrest : ∀ x ∈ rest, t < x.from_) :
    signed (w + 1) (t - f) = countIn (fun x => !covered (before ++ rest) x) f t ∧
    Apart w (before ++ ⟨f, f⟩ :: rest) ∧
    (∀ x, covered (before ++ ⟨f, f⟩ :: rest) x = covered (before ++ rest) x) ∧
    Ready (before ++ ⟨f, f⟩ :: rest) f t := by
  refine ⟨?_, ?_, ?_, before, ⟨f, f⟩, rest, locate_fresh hbefore rest, hft⟩
  · rw [countIn_covered_append hbefore, countIn_of_forall hft]
    · apply signed_eq <;> omega
    · intro x _ hx
      have hle : ∀ y ∈ rest, t ≤ y.from_ := fun y hy =>
        le_of_lt (hrest y hy)
      rw [covered_behind hle hx, Bool.not_false]
  · refine (h.of_sublist (sublist_append_left _ _)).join h.right hf
      le_rfl (show f < 2 ^ w by omega) hbefore ?_
    intro x hx
    have hx' := hrest x hx
    show f < x.from_
    omega
  · intro x
    have hempty : ¬(f ≤ x ∧ x < f) := by omega
    rw [covered_append, covered_append, covered_cons, decide_eq_false hempty, Bool.false_or]

lemma Located.chg {rest : List FileRegion} (h : Apart w head)
    (hl : Located w head f before rg rest) (hft : f ≤ t) (ht : t < 2 ^ w)
    (hf : 0 ≤ f) (hnear : rg.from_ ≤ t) :
    chgLoop (w + 1) (signed (w + 1) (t - if f > rg.from_ then rg.from_ else f)) t (rg :: rest)
      = countIn (fun x => !covered head x) f t := by
  obtain ⟨hnonneg, hle, hlt⟩ := hl.here
  have hfound := hl.found
  have hright := (hl.list ▸ h : Apart w (before ++ rg :: rest)).right
  have hrange : ∀ a, 0 ≤ a → a ≤ t → ∀ {p : Int → Bool},
      signed (w + 1) (countIn p a t) = countIn p a t := by
    intro a ha hat p
    have h0 := countIn_nonneg (p := p) (a := a) (b := t)
    have h1 := countIn_le (p := p) hat
    apply signed_eq <;> omega
  rw [chgLoop_eq]
  by_cases hinside : f > rg.from_
  · -- what the left edge is rounded over is reserved
    have hcovered : countIn (fun x => !covered (rg :: rest) x) rg.from_ f = 0 := by
      apply countIn_of_not
      intro x hx hxf
      rw [covered_here hx (by omega), Bool.not_true]
    rw [if_pos hinside, chgExact_eq _ _ _ rg.from_ hright hnear
        (hright.from_le le_rfl), ← countIn_not hnear,
      hrange _ hnonneg hnear, hl.list, countIn_covered_append hl.below,
      ← countIn_add (le_of_lt hinside) hft, hcovered, zero_add]
  · rw [if_neg hinside, chgExact_eq _ _ _ f hright hft
        (hright.from_le (by omega)), ← countIn_not hft,
      hrange _ hf hft, hl.list, countIn_covered_append hl.below]

lemma regionChg_spec (mem : Bool) (h : Apart w head) (hf : 0 ≤ f) (hft : f ≤ t) (ht : t < 2 ^ w) :
    regionChg (w + 1) mem head f t = (enomem, head) ∧ mem = false ∨
    ∃ head', regionChg (w + 1) mem head f t = (countIn (fun x => !covered head x) f t, head') ∧
      Apart w head' ∧ (∀ x, covered head' x = covered head x) ∧
      Ready head' f t := by
  unfold regionChg
  obtain ⟨before, rg, rest, hl⟩ | ⟨hnone, hbelow⟩ := h.locate f
  · rw [hl.run]
    dsimp only
    by_cases hbehind : t < rg.from_
    · have hall : ∀ x ∈ rg :: rest, t < x.from_ := by
        rw [hl.list] at h
        intro x hx
        have hx' := h.right.from_le le_rfl x hx
        omega
      obtain ⟨hcount, hapart, hsame, hready⟩ := (hl.list ▸ h).fresh hf hft ht hl.below hall
      rw [if_pos hbehind]
      cases mem with
      | false => exact .inl ⟨rfl, rfl⟩
      | true =>
        rw [if_pos rfl, hcount, ← hl.list]
        rw [← hl.list] at hsame
        exact .inr ⟨_, rfl, hapart, hsame, hready⟩
    · rw [if_neg hbehind, hl.chg h hft ht hf (by omega)]
      exact .inr ⟨head, rfl, h, fun _ => rfl, before, rg, rest, hl.run, by omega⟩
  · have hhead : head ++ [] = head := append_nil head
    obtain ⟨hcount, hapart, hsame, hready⟩ := (hhead.symm ▸ h).fresh hf hft ht
      hbelow (forall_mem_nil _)
    rw [hnone]
    dsimp only
    cases mem with
    | false => exact .inl ⟨rfl, rfl⟩
    | true =>
      rw [if_pos rfl, hcount, hhead]
      rw [hhead] at hsame
      exact .inr ⟨_, rfl, hapart, hsame, hready⟩

-- == region_truncate

lemma dropLoop_eq (rest : List FileRegion) : ∀ chg, ∃ total : Int,
    dropLoop w (signed w chg) rest = signed w (chg + total) ∧
    ∀ v a b, Apart v rest → a ≤ b → (∀ x ∈ rest, a ≤ x.from_) →
      (∀ x ∈ rest, x.to_ ≤ b) → total = countIn (covered rest) a b := by
  induction rest with
  | nil =>
    intro chg
    refine ⟨0, by rw [add_zero]; rfl, ?_⟩
    intro v a b _ _ _ _
    exact (countIn_of_not (p := covered []) fun _ _ _ => rfl).symm
  | cons rg rest ih =>
    intro chg
    obtain ⟨total, hrun, htotal⟩ := ih (chg + (rg.to_ - rg.from_))
    refine ⟨rg.to_ - rg.from_ + total, ?_, ?_⟩
    · rw [dropLoop, signed_add_signed, hrun, add_assoc]
    intro v a b hrest hab ha hb
    have hbrg := hb rg mem_cons_self
    have hbehind : ∀ x ∈ rest, rg.to_ ≤ x.from_ := fun x hx => le_of_lt (hrest.head_lt x hx)
    rw [hrest.count_cons (ha rg mem_cons_self) hbrg,
      htotal v rg.to_ b hrest.tail hbrg hbehind fun x hx => hb x (mem_cons_of_mem rg hx)]

lemma covered_cut (hbefore : ∀ x ∈ before, x.to_ ≤ t) (x : Int) :
    covered before x = (covered before x && decide (x < t)) := by
  by_cases hx : x < t
  · rw [decide_eq_true hx, Bool.and_true]
  · rw [covered_before hbefore (by omega), Bool.false_and]

lemma Located.count (hl : Located w head t before rg rest) :
    countIn (covered head) t (2 ^ w) = countIn (covered (rg :: rest)) t (2 ^ w) := by
  apply countIn_congr
  intro x hx _
  rw [hl.list, covered_append, covered_before (fun y hy => le_of_lt (hl.below y hy)) hx,
    Bool.false_or]

lemma Located.truncate_inside (hl : Located w head t before rg rest) (hinside : rg.from_ < t) :
    dropLoop (w + 1) (signed (w + 1) (rg.to_ - t)) rest = countIn (covered head) t (2 ^ w) ∧
    Apart w (before ++ [⟨rg.from_, t⟩]) ∧
    ∀ x, covered (before ++ [⟨rg.from_, t⟩]) x = (covered head x && decide (x < t)) := by
  obtain ⟨hnonneg, hle, hlt⟩ := hl.here
  have hfound := hl.found
  have hlast : rg.to_ ≤ 2 ^ w := le_of_lt hlt
  have hbehind : ∀ x ∈ rest, rg.to_ ≤ x.from_ := fun x hx =>
    le_of_lt (hl.behind x hx)
  refine ⟨?_, ?_, ?_⟩
  · have hhere : countIn (covered (rg :: rest)) t rg.to_ = rg.to_ - t :=
      countIn_of_forall hfound fun x hx hx' => covered_here (by omega) hx'
    have hthere : countIn (covered (rg :: rest)) rg.to_ (2 ^ w)
        = countIn (covered rest) rg.to_ (2 ^ w) := countIn_congr fun x hx _ => covered_above hx
    have hbound := countIn_le (p := covered rest) hlast
    have hpos := countIn_nonneg (p := covered rest) (a := rg.to_) (b := 2 ^ w)
    obtain ⟨total, hrun, htotal⟩ := dropLoop_eq (w := w + 1) rest (rg.to_ - t)
    rw [hrun, htotal w rg.to_ (2 ^ w) hl.right hlast hbehind
        (fun x hx => le_of_lt (hl.right.lt x hx)),
      hl.count, ← countIn_add hfound hlast, hhere, hthere, signed_eq (by omega) (by omega)]
  · refine hl.left.join .nil hnonneg (show rg.from_ ≤ t by omega)
      (show t < 2 ^ w by omega) hl.apart ?_
    intro x hx
    exact absurd hx not_mem_nil
  · intro x
    have hbelow : ∀ y ∈ before, y.to_ ≤ t := fun y hy =>
      le_of_lt (hl.below y hy)
    rw [hl.list, covered_append, covered_append, covered_cons, covered_cons,
      covered_nil, Bool.or_false, covered_cut hbelow x]
    by_cases hx : x < t
    · have hx' : x < rg.to_ := by omega
      rw [covered_behind hbehind hx']
      simp [hx, hx']
    · simp [hx]

lemma Located.truncate_before (h : Apart w head)
    (hl : Located w head t before rg rest) (hbefore : t ≤ rg.from_) :
    dropLoop (w + 1) 0 (rg :: rest) = countIn (covered head) t (2 ^ w) ∧
    ∀ x, covered before x = (covered head x && decide (x < t)) := by
  have hright := (hl.list ▸ h : Apart w (before ++ rg :: rest)).right
  obtain ⟨hnonneg, hle, hlt⟩ := hl.here
  constructor
  · have hzero : signed (w + 1) 0 = 0 := Int.zero_bmod
    have hlast : ∀ x ∈ rg :: rest, x.to_ ≤ 2 ^ w := fun x hx =>
      le_of_lt (hright.lt x hx)
    obtain ⟨total, hrun, htotal⟩ := dropLoop_eq (w := w + 1) (rg :: rest) 0
    -- the count fits: pages are at least 0 and below the maximum
    have hfits := htotal w 0 (2 ^ w - 1) hright (by omega) hright.nonneg
      (fun x hx => Int.le_sub_one_of_lt (hright.lt x hx))
    have hbound := countIn_le (p := covered (rg :: rest)) (by omega : (0 : Int) ≤ 2 ^ w - 1)
    have hpos := countIn_nonneg (p := covered (rg :: rest)) (a := 0) (b := 2 ^ w - 1)
    rw [← hzero, hrun, zero_add, signed_eq (by omega) (by omega),
      htotal w t (2 ^ w) hright (by omega) (hright.from_le hbefore) hlast, hl.count]
  · intro x
    rw [hl.list, covered_append, covered_cut (fun y hy => le_of_lt (hl.below y hy)) x]
    by_cases hx : x < t
    · rw [hright.covered_below (by omega)]
      simp [hx]
    · simp [hx]

lemma regionTruncate_spec (h : Apart w head) (end_ : Int) :
    ∃ head', regionTruncate (w + 1) head end_ = (countIn (covered head) end_ (2 ^ w), head') ∧
      Apart w head' ∧
      ∀ x, covered head' x = (covered head x && decide (x < end_)) := by
  unfold regionTruncate
  obtain ⟨before, rg, rest, hl⟩ | ⟨hnone, hbelow⟩ := h.locate end_
  · rw [hl.run]
    dsimp only
    by_cases hinside : end_ > rg.from_
    · obtain ⟨hcount, hapart, hcut⟩ := hl.truncate_inside hinside
      rw [if_pos hinside, hcount]
      exact ⟨_, rfl, hapart, hcut⟩
    · obtain ⟨hcount, hcut⟩ := hl.truncate_before h (by omega)
      rw [if_neg hinside, hcount]
      exact ⟨_, rfl, hl.left, hcut⟩
  · have hbelow' : ∀ x ∈ head, x.to_ ≤ end_ := fun x hx =>
      le_of_lt (hbelow x hx)
    rw [hnone]
    refine ⟨head, ?_, h, covered_cut hbelow'⟩
    rw [countIn_of_not fun x hx _ => covered_before hbelow' hx]

-- == runs

def pages (head : List FileRegion) : Set Int := {x | covered head x = true}

/-- The pages of `[f, t)`. -/
def pagesIn (f t : Int) : Set Int := {x | f ≤ x ∧ x < t}

/-- The lists that calls lead to, from the empty one, with the interval of the
last call if that was a `region_chg` that succeeded: a `region_add` follows such
a call, for the same interval. -/
inductive Reached (w : Nat) : List FileRegion → Option (Int × Int) → Prop
  | empty : Reached w [] none
  | chg {head : List FileRegion} {last : Option (Int × Int)} {f t : Int}
      (mem : Bool) : Reached w head last → 0 ≤ f → f ≤ t → t < 2 ^ w →
      Reached w (regionChg (w + 1) mem head f t).2
        (if 0 ≤ (regionChg (w + 1) mem head f t).1 then some (f, t) else none)
  | add {head head' : List FileRegion} {f t : Int} :
      Reached w head (some (f, t)) → regionAdd head f t = some head' →
      Reached w head' none
  | truncate {head : List FileRegion} {last : Option (Int × Int)}
      (end_ : Int) : Reached w head last →
      Reached w (regionTruncate (w + 1) head end_).2 none

structure Inv (w : Nat) (head : List FileRegion) (last : Option (Int × Int)) : Prop where
  apart : Apart w head
  ready : ∀ f t, last = some (f, t) → 0 ≤ f ∧ f ≤ t ∧ t < 2 ^ w ∧ Ready head f t

lemma Reached.inv {last : Option (Int × Int)} (h : Reached w head last) : Inv w head last := by
  induction h with
  | empty =>
    exact ⟨.nil, nofun⟩
  | @chg head last f t mem _ hf hft ht ih =>
    obtain ⟨hrun, -⟩ | ⟨head', hrun, hapart, -, hready⟩ := regionChg_spec mem ih.apart hf hft ht
    · rw [hrun]
      refine ⟨ih.apart, ?_⟩
      intro f' t' h
      simp [if_neg (show ¬0 ≤ enomem by decide)] at h
    rw [hrun]
    refine ⟨hapart, ?_⟩
    intro f' t' h
    obtain ⟨rfl, rfl⟩ := Prod.ext_iff.mp (Option.some.inj h)
    exact ⟨hf, hft, ht, hready⟩
  | @add head head' f t _ hrun ih =>
    obtain ⟨hf, hft, ht, hready⟩ := ih.ready f t rfl
    obtain ⟨_, hrun', hapart, -⟩ := regionAdd_spec ih.apart hready hf hft ht
    obtain rfl := Option.some.inj (hrun'.symm.trans hrun)
    exact ⟨hapart, nofun⟩
  | @truncate head last end_ _ ih =>
    obtain ⟨head', hrun, hapart, -⟩ := regionTruncate_spec ih.apart end_
    rw [hrun]
    exact ⟨hapart, nofun⟩

/-- The regions count pages: on every list that calls lead to, sorted and
disjoint as it is, `region_chg` returns the number of pages of the interval
that are not reserved and reserves none (or fails for lack of memory and leaves
the list), `region_add` after it finds a region and reserves the interval, and
`region_truncate` drops the pages from `end` on and returns their number. -/
theorem regions_count_pages {last : Option (Int × Int)} (h : Reached w head last) :
    (head.Pairwise (fun a b => a.to_ ≤ b.from_) ∧ ∀ rg ∈ head, rg.from_ ≤ rg.to_) ∧
    (∀ mem f t, 0 ≤ f → f ≤ t → t < 2 ^ w →
      regionChg (w + 1) mem head f t = (enomem, head) ∧ mem = false ∨
      ∃ head', regionChg (w + 1) mem head f t = (↑(pagesIn f t \ pages head).ncard, head') ∧
        pages head' = pages head) ∧
    (∀ f t, last = some (f, t) → ∃ head', regionAdd head f t = some head' ∧
      pages head' = pages head ∪ pagesIn f t) ∧
    ∀ end_, ∃ head', regionTruncate (w + 1) head end_
        = (↑{x ∈ pages head | end_ ≤ x}.ncard, head') ∧
      pages head' = {x ∈ pages head | x < end_} := by
  obtain ⟨hapart, hready⟩ := h.inv
  refine ⟨⟨hapart.sorted.imp fun h => le_of_lt h, hapart.le⟩, ?_, ?_, ?_⟩
  · intro mem f t hf hft ht
    obtain hfail | ⟨head', hrun, -, hsame, -⟩ := regionChg_spec mem hapart hf hft ht
    · exact .inl hfail
    refine .inr ⟨head', ?_, ?_⟩
    · rw [hrun, ncard_eq_countIn (p := fun x => !covered head x) (a := f) (b := t)]
      intro x
      simp [pages, pagesIn, and_assoc]
    · ext x
      simp [pages, hsame]
  · intro f t hlast
    obtain ⟨hf, hft, ht, hready⟩ := hready f t hlast
    obtain ⟨head', hrun, -, hcover⟩ := regionAdd_spec hapart hready hf hft ht
    refine ⟨head', hrun, ?_⟩
    ext x
    simp [pages, pagesIn, hcover]
  · intro end_
    obtain ⟨head', hrun, -, hcut⟩ := regionTruncate_spec hapart end_
    refine ⟨head', ?_, ?_⟩
    · rw [hrun, ncard_eq_countIn (p := covered head) (a := end_) (b := 2 ^ w)]
      intro x
      constructor
      · intro hx
        obtain ⟨rg, hrg, hin⟩ := covered_iff.mp hx.1
        have hlt := hapart.lt rg hrg
        exact ⟨hx.2, by omega, hx.1⟩
      · intro hx
        exact ⟨hx.2.2, hx.1⟩
    · ext x
      simp [pages, hcut]

/-- Three pages, reserved. -/
theorem threePages_counted :
    (regionChg 32 true [⟨2, 5⟩] 4 7).1 = (pagesIn 4 7 \ pages [⟨2, 5⟩]).ncard := by
  have hchg : Reached 31 [⟨2, 2⟩] (some (2, 5)) :=
    .chg (f := 2) (t := 5) true .empty (by decide) (by decide) (by decide)
  have hreached : Reached 31 [⟨2, 5⟩] none := .add hchg rfl
  obtain ⟨-, hmem⟩ | ⟨head', hrun, -⟩ :=
    (regions_count_pages hreached).2.1 true 4 7 (by decide) (by decide) (by decide)
  · cases hmem
  · rw [hrun]

/-- From the least to the greatest `long` there are more pages than a `long` can
count. -/
theorem chg_of_negative_wraps :
    (regionChg 32 true [] (-2147483648) 2147483647).1 = -1 ∧
    ((pagesIn (-2147483648) 2147483647 \ pages []).ncard : Int) = 4294967295 := by
  refine ⟨by decide, ?_⟩
  rw [ncard_eq_countIn (p := fun _ => true) (a := -2147483648)
    (b := 2147483647), countIn_of_forall (by decide) fun _ _ _ => rfl]
  · decide
  · intro x
    simp [pages, pagesIn]

end BoardStack.Hugetlb
