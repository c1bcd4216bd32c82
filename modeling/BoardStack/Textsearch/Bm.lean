/-
Text search from the right end of the pattern (lib/ts_bm.c).

`shift`, `bs` and the indices of the tables are `int` of 32 bits; a comparison with
`text_len` is unsigned. In a text that is delivered as one block the search finds
the first occurrence, as long as its jumps lead forward and not past it (`Leads`).
Near the end of the range of `int` the longer of the two jumps can become negative;
the shorter one is taken instead, and it can lead back. Without regard to case a
byte can lead too far that is lower case and not the lower case of its upper case.
-/
import BoardStack.Base.CInt
import BoardStack.Textsearch.Kmp

namespace BoardStack.Textsearch

open Base Function

-- == tables

/-- `isupper`, after the table `_ctype`. -/
def isupper (c : UInt8) : Bool := (65 ≤ c && c ≤ 90) || (192 ≤ c && c ≤ 214) || (216 ≤ c && c ≤ 222)

def tolower (c : UInt8) : UInt8 := if isupper c then c - 65 + 97 else c

/-- `for (i = 0; i < bm->patlen - 1; i++)`, from `i` on; the argument is how many
are left. -/
def badLoop (pattern : Nat → UInt8) (patlen : Nat) (icase : Bool) :
    Nat → Nat → (UInt8 → Nat) → UInt8 → Nat
  | 0, _, badShift => badShift
  | left + 1, i, badShift =>
    let badShift := update badShift (pattern i) (patlen - 1 - i)
    let badShift := if icase then
      update badShift (tolower (pattern i)) (patlen - 1 - i)
      else badShift
    badLoop pattern patlen icase left (i + 1) badShift

/-- The loop of `subpattern`; the argument is `g`. -/
def subpatternLoop (pattern : Nat → UInt8) (i j : Int) : Nat → Int → Int → Bool
  | 0, _, _ => false
  | g + 1, x, y =>
    if pattern x.toNat ≠ pattern y.toNat then false
    else if y - 1 < 0 then true
    else if g = 0 then pattern (i - 1).toNat != pattern (j - 1).toNat
    else subpatternLoop pattern i j g (x - 1) (y - 1)

def subpattern (pattern : Nat → UInt8) (i j : Int) (g : Nat) : Bool :=
  subpatternLoop pattern i j g (i + g - 1) (j + g - 1)

/-- `for (j = i-1; j >= 1-g ; j--)`: the first `j` that `subpattern` accepts. -/
def findAgain (pattern : Nat → UInt8) (i : Int) (g : Nat) : Nat → Int → Option Int
  | 0, _ => none
  | fuel + 1, j =>
    if j < 1 - g then none
    else if subpattern pattern i j g then some j
    else findAgain pattern i g fuel (j - 1)

/-- An entry of `good_shift`: the loop over `i` and `g` has `i = patlen - g`. -/
def goodShift (pattern : Nat → UInt8) (patlen g : Nat) : Nat :=
  if g = 0 then 1
  else
    let i : Int := patlen - g
    match findAgain pattern i g patlen (i - 1) with
    | none => patlen
    | some j => (patlen - j - g).toNat

structure TsBm where
  pattern : Nat → UInt8
  patlen : Nat
  badShift : UInt8 → Nat
  goodShift : Nat → Nat

/-- `bm_init` and `compute_prefix_tbl`. -/
def bmInit (pattern : List UInt8) (icase : Bool) : TsBm :=
  let stored := fun i => fold icase (pattern.getD i 0)
  { pattern := stored
    patlen := pattern.length
    badShift := badLoop stored pattern.length icase (pattern.length - 1) 0 fun _ => pattern.length
    goodShift := goodShift stored pattern.length }

-- == the search

/-- `for (i = 0; i < bm->patlen; i++)`, from `i` on: the comparison that fails. -/
def mismatch (bm : TsBm) (icase : Bool) (text : Nat → UInt8) (shift : Int) : Nat → Nat → Option Nat
  | 0, _ => none
  | left + 1, i =>
    if fold icase (text (unsigned 32 (shift - i))) ≠ bm.pattern (bm.patlen - 1 - i) then some i
    else mismatch bm icase text shift left (i + 1)

/-- `max_t(int, shift-i+bs, shift+bm->good_shift[i])`. -/
def jump (bm : TsBm) (text : Nat → UInt8) (shift : Int) (i : Nat) : Int :=
  let bs := bm.badShift (text (unsigned 32 (shift - i)))
  max (signed 32 (shift - i + bs)) (signed 32 (shift + bm.goodShift i))

/-- How `while (shift < text_len)` ends. -/
inductive Shifted
  | found (shift : Int)
  | carried (shift : Int)
deriving DecidableEq, Repr

/-- `while (shift < text_len)`. -/
def shiftLoop (bm : TsBm) (icase : Bool) (text : Nat → UInt8) (textLen : Nat) :
    Nat → Int → Option Shifted
  | 0, _ => none
  | fuel + 1, shift =>
    if unsigned 32 shift < textLen then
      match mismatch bm icase text shift bm.patlen 0 with
      | none => some (.found shift)
      | some i => shiftLoop bm icase text textLen fuel (jump bm text shift i)
    else some (.carried shift)

/-- `for (;;)`. -/
def bmLoop (bm : TsBm) (icase : Bool) (next : GetNextBlock) (fuel : Nat) :
    Nat → Nat → Int → Option Nat
  | 0, _, _ => none
  | blocks + 1, consumed, shift =>
    let block := next consumed
    if block.1 = 0 then some uintMax
    else
      match shiftLoop bm icase block.2 block.1 fuel shift with
      | none => none
      | some (.found shift) =>
        some (unsigned 32 (consumed + (shift - (bm.patlen - 1))))
      | some (.carried shift) =>
        bmLoop bm icase next fuel blocks ((consumed + block.1) % 2 ^ 32) shift

/-- `bm_find`, started at an offset. -/
def bmFind (bm : TsBm) (icase : Bool) (next : GetNextBlock) (fuel offset : Nat) : Option Nat :=
  bmLoop bm icase next fuel fuel offset (signed 32 (bm.patlen - 1))

-- == the tables

variable {pat : Nat → UInt8} {m n g d : Nat} {icase : Bool}

/-- The bad shifts that are known when the first `i` bytes have been seen. -/
def BadUpTo (pat : Nat → UInt8) (m i : Nat) (tbl : UInt8 → Nat) : Prop :=
  ∀ c, tbl c ≤ m ∧ ∀ x, x < i → pat x = c → tbl c ≤ m - 1 - x

lemma BadUpTo.lower {i : Nat} {tbl : UInt8 → Nat} (h : BadUpTo pat m i tbl) (c : UInt8) :
    BadUpTo pat m i (update tbl c (m - 1 - i)) := by
  intro c'
  by_cases hc : c' = c
  · rw [hc, update_self]
    exact ⟨by omega, fun x hx _ => by omega⟩
  · rw [update_of_ne hc]
    exact h c'

lemma BadUpTo.succ {i : Nat} {tbl : UInt8 → Nat} (h : BadUpTo pat m i tbl)
    (hle : tbl (pat i) ≤ m - 1 - i) : BadUpTo pat m (i + 1) tbl := by
  refine fun c => ⟨(h c).1, fun x hx hpat => ?_⟩
  by_cases hxi : x = i
  · rwa [← hpat, hxi]
  · exact (h c).2 x (by omega) hpat

/-- Without regard to case the entries are also made for the lower case. -/
lemma badLoop_spec (left : Nat) {i : Nat} {tbl : UInt8 → Nat} (h : BadUpTo pat m i tbl)
    (hlower : icase = true → BadUpTo (fun x => tolower (pat x)) m i tbl) :
    BadUpTo pat m (i + left) (badLoop pat m icase left i tbl) ∧ (icase = true →
      BadUpTo (fun x => tolower (pat x)) m (i + left) (badLoop pat m icase left i tbl)) := by
  induction left generalizing i tbl with
  | zero => exact ⟨h, hlower⟩
  | succ left ih =>
    unfold badLoop
    dsimp only
    rw [show i + (left + 1) = i + 1 + left by omega]
    by_cases hcase : icase = true
    · rw [if_pos hcase]
      refine ih (((h.lower _).lower _).succ ?_) fun _ => (((hlower hcase).lower _).lower _).succ ?_
      · rw [update_apply, update_self, ite_self]
      · rw [update_self]
    · rw [if_neg hcase]
      exact ih ((h.lower _).succ (by rw [update_self])) fun h => absurd h hcase

lemma subpatternLoop_accepts (h : Again pat m g d) (hg : g < m) {r k : Nat}
    (hk : k + (r + 1) = g) (hd : d + k < m) :
    subpatternLoop pat (m - g) (m - g - d) (r + 1) (m - 1 - k) (m - 1 - (d + k)) = true := by
  induction r using Nat.strong_induction_on generalizing k with
  | _ r ih =>
    unfold subpatternLoop
    have hx : ((m : Int) - 1 - k).toNat = m - 1 - k := by omega
    have hy : ((m : Int) - 1 - (d + k)).toNat = m - 1 - (d + k) := by omega
    rw [hx, hy, if_neg (not_not.mpr (h.1 k (by omega) hd).symm)]
    by_cases hend : (m : Int) - 1 - (d + k) - 1 < 0
    · rw [if_pos hend]
    rw [if_neg hend]
    rcases r with _ | r
    · have hi : ((m : Int) - g - 1).toNat = m - 1 - g := by omega
      have hj : ((m : Int) - g - d - 1).toNat = m - 1 - (d + g) := by omega
      rw [if_pos rfl, hi, hj]
      exact bne_iff_ne.mpr (h.2 (by omega)).symm
    have hrest := ih r (Nat.lt_succ_self r) (k := k + 1) (by omega) (by omega)
    rw [if_neg (Nat.succ_ne_zero r),
      show (m : Int) - 1 - k - 1 = m - 1 - (k + 1) by ring,
      show (m : Int) - 1 - (d + k) - 1 = m - 1 - (d + (k + 1)) by ring]
    exact hrest

lemma subpattern_accepts (h : Again pat m g d) (hpos : 0 < g) (hg : g < m)
    (hd : d < m) : subpattern pat (m - g) (m - g - d) g = true := by
  rcases g with _ | r
  · omega
  have haccepts := subpatternLoop_accepts h hg (r := r) (k := 0) (by omega) hd
  unfold subpattern
  rw [show ((m : Int) - (r + 1 : Nat) + (r + 1 : Nat) - 1) = m - 1 - (0 : Nat) by
      push_cast; ring, show ((m : Int) - (r + 1 : Nat) - d + (r + 1 : Nat) - 1)
      = m - 1 - (d + (0 : Nat)) by push_cast; ring]
  exact haccepts

variable {fuel : Nat}

lemma findAgain_bounds {i j j' : Int}
    (h : findAgain pat i g fuel j = some j') : 1 - g ≤ j' ∧ j' ≤ j := by
  induction fuel generalizing j with
  | zero => exact absurd h (by simp [findAgain])
  | succ fuel ih =>
    unfold findAgain at h
    split_ifs at h with hlow haccept
    · obtain rfl := Option.some.inj h
      omega
    · have hrest := ih h
      omega

lemma findAgain_finds {i j j' : Int} (h : subpattern pat i j' g = true)
    (hlow : 1 - (g : Int) ≤ j') (hj : j' ≤ j) (hfuel : j - j' < fuel) :
    ∃ j'', findAgain pat i g fuel j = some j'' ∧ j' ≤ j'' := by
  induction fuel generalizing j with
  | zero => omega
  | succ fuel ih =>
    unfold findAgain
    rw [if_neg (by omega)]
    by_cases haccept : subpattern pat i j g = true
    · rw [if_pos haccept]
      exact ⟨j, rfl, hj⟩
    rw [if_neg haccept]
    have hne : j' ≠ j := by
      rintro rfl
      exact haccept h
    exact ih (by omega) (by omega)

lemma goodShift_spec (pat : Nat → UInt8) (hg : g < m) :
    1 ≤ goodShift pat m g ∧ goodShift pat m g ≤ m ∧
    ∀ d, 0 < d → d < m → Again pat m g d → goodShift pat m g ≤ d := by
  unfold goodShift
  by_cases hzero : g = 0
  · rw [if_pos hzero]
    exact ⟨le_rfl, by omega, fun d hd _ _ => hd⟩
  rw [if_neg hzero]
  dsimp only
  rw [← and_assoc]
  refine ⟨?_, fun d hpos hd hagain => ?_⟩
  · cases hfind : findAgain pat (m - g) g m (m - g - 1) with
    | none => exact ⟨Nat.lt_of_le_of_lt (Nat.zero_le g) hg, le_rfl⟩
    | some j =>
      have hbounds := findAgain_bounds hfind
      dsimp only
      omega
  · have haccepts := subpattern_accepts hagain (by omega) hg hd
    have hfuel : ((m : Int) - g - 1) - (m - g - d) < m := by omega
    obtain ⟨j, hfind, hj⟩ := findAgain_finds haccepts (by omega) (by omega) hfuel
    rw [hfind]
    dsimp only
    omega

/-- How far the pattern can be moved to a byte of the text. -/
def BadAt (bm : TsBm) (icase : Bool) (c : UInt8) : Prop :=
  bm.badShift c ≤ bm.patlen ∧
    ∀ x, x + 1 < bm.patlen → bm.pattern x = fold icase c → bm.badShift c ≤ bm.patlen - 1 - x

variable {pattern : List UInt8} {block text : Nat → UInt8} {s e : Nat} {bm : TsBm}

lemma badUpTo_bmInit (pattern : List UInt8) (icase : Bool) :
    BadUpTo (bmInit pattern icase).pattern pattern.length (pattern.length - 1)
        (bmInit pattern icase).badShift ∧ (icase = true →
      BadUpTo (fun x => tolower ((bmInit pattern icase).pattern x)) pattern.length
        (pattern.length - 1) (bmInit pattern icase).badShift) := by
  have hstart : ∀ pat : Nat → UInt8, BadUpTo pat pattern.length 0 fun _ => pattern.length :=
    fun _ _ => ⟨le_rfl, fun x hx _ => absurd hx (Nat.not_lt_zero x)⟩
  have hspec := badLoop_spec (pattern.length - 1) (hstart (bmInit pattern icase).pattern)
    fun _ : icase = true => hstart _
  rwa [zero_add] at hspec

lemma badShift_le (pattern : List UInt8) (icase : Bool) (c : UInt8) :
    (bmInit pattern icase).badShift c ≤ (bmInit pattern icase).patlen :=
  ((badUpTo_bmInit pattern icase).1 c).1

/-- All bytes but two have an entry, as they are or as the lower case, and these two
need none if their upper case is not in the pattern. -/
lemma badAt_bmInit {c : UInt8} (hc : icase = true → c = 0xdf ∨ c = 0xff →
      ∀ x, x + 1 < pattern.length → (bmInit pattern icase).pattern x ≠ fold icase c) :
    BadAt (bmInit pattern icase) icase c := by
  obtain ⟨hbad, hlower⟩ := badUpTo_bmInit pattern icase
  refine ⟨(hbad c).1, fun x hx hpat => ?_⟩
  have hlt : x < pattern.length - 1 := Nat.lt_sub_of_add_lt hx
  cases icase with
  | false => exact (hbad c).2 x hlt hpat
  | true =>
    have hother : ¬(c = 0xdf ∨ c = 0xff) := fun h => hc rfl h x hx hpat
    have hentry : toupper c = c ∨ tolower (toupper c) = c := by
      unfold tolower toupper isupper islower
      grind
    rcases hentry with hentry | hentry
    · exact (hbad c).2 x hlt (hpat.trans hentry)
    · exact (hlower rfl c).2 x hlt ((congrArg tolower hpat).trans hentry)

-- == one window

variable {shift : Int}

lemma unsigned_sub_of_le {i : Nat} (hshift : unsigned 32 shift = s) (hi : i ≤ s) :
    unsigned 32 (shift - i) = s - i := by
  unfold unsigned at hshift ⊢
  omega

/-- An occurrence of the pattern has its last byte at `e`. -/
def EndsAt (bm : TsBm) (icase : Bool) (text : Nat → UInt8) (e : Nat) : Prop :=
  Ends bm.pattern (fold icase ∘ text) bm.patlen (e + 1)

/-- The comparison of a window from the right fails at `g`. -/
structure Stops (bm : TsBm) (icase : Bool) (text : Nat → UInt8) (s g : Nat) : Prop where
  window : bm.patlen ≤ s + 1
  lt : g < bm.patlen
  met : Met bm.pattern (fold icase ∘ text) bm.patlen s g
  differs : fold icase (text (s - g)) ≠ bm.pattern (bm.patlen - 1 - g)

lemma mismatch_spec {left i : Nat} (hleft : i + left = bm.patlen) (hs : bm.patlen ≤ s + 1)
    (hshift : unsigned 32 shift = s) (hmet : Met bm.pattern (fold icase ∘ block) bm.patlen s i) :
    match mismatch bm icase block shift left i with
    | none => Met bm.pattern (fold icase ∘ block) bm.patlen s bm.patlen
    | some g => Stops bm icase block s g := by
  induction left generalizing i with
  | zero =>
    obtain rfl : i = bm.patlen := by omega
    exact hmet
  | succ left ih =>
    unfold mismatch
    rw [unsigned_sub_of_le hshift (by omega)]
    by_cases hdiffers : fold icase (block (s - i)) ≠ bm.pattern (bm.patlen - 1 - i)
    · rw [if_pos hdiffers]
      exact ⟨hs, by omega, hmet, hdiffers⟩
    rw [if_neg hdiffers]
    apply ih (by omega)
    intro k hk
    by_cases hki : k = i
    · rw [hki]
      exact not_not.mp hdiffers
    · exact hmet k (by omega)

lemma ends_of_window (hs : bm.patlen ≤ s + 1)
    (h : Met bm.pattern (fold icase ∘ text) bm.patlen s bm.patlen) : EndsAt bm icase text s := by
  refine ⟨hs, fun i hi => ?_⟩
  have hat := h (bm.patlen - 1 - i) (by omega)
  rwa [show s - (bm.patlen - 1 - i) = s + 1 - bm.patlen + i by omega,
    show bm.patlen - 1 - (bm.patlen - 1 - i) = i by omega] at hat

/-- `shift-i+bs`, as a number. -/
def badJump (bm : TsBm) (text : Nat → UInt8) (s g : Nat) : Nat :=
  s - g + bm.badShift (text (s - g))

/-- `shift+bm->good_shift[i]`, as a number. -/
def goodJump (bm : TsBm) (s g : Nat) : Nat := s + bm.goodShift g

lemma jump_eq (hshift : unsigned 32 shift = s) (hg : g ≤ s) : jump bm text shift g
    = max (signed 32 (badJump bm text s g : Nat)) (signed 32 (goodJump bm s g : Nat)) := by
  have hcongr : ∀ x y : Int, x % 2 ^ 32 = y % 2 ^ 32 → signed 32 x = signed 32 y := by
    intro x y hxy
    unfold signed
    rw [← Int.emod_bmod x, ← Int.emod_bmod y]
    exact congrArg (Int.bmod · _) hxy
  unfold jump badJump goodJump
  dsimp only
  rw [unsigned_sub_of_le hshift hg]
  unfold unsigned at hshift
  exact congrArg₂ max (hcongr _ _ (by omega)) (hcongr _ _ (by omega))

/-- At every window of the text that no occurrence lies before, one of the jumps that
`int` holds leads forward, and the byte that differs does not lead past an occurrence. -/
def Leads (bm : TsBm) (icase : Bool) (text : Nat → UInt8) (n : Nat) : Prop :=
  ∀ s g, s < n → Stops bm icase text s g →
    (∀ e, e < s → ¬EndsAt bm icase text e) →
    s + bm.patlen < 2 ^ 32 ∧
    (goodJump bm s g < 2 ^ 31 ∨ 2 ^ 31 ≤ badJump bm text s g ∨ s < badJump bm text s g) ∧
    ∀ e, s < e → e < n → EndsAt bm icase text e →
      badJump bm text s g ≤ e

lemma Stops.congr (ht : ∀ i, i ≤ s → block i = text i) (h : Stops bm icase block s g) :
    Stops bm icase text s g where
  window := h.window
  lt := h.lt
  met := by
    intro k hk
    rw [← h.met k hk, Function.comp_apply, Function.comp_apply, ht _ (Nat.sub_le s k)]
  differs := by
    rw [← ht _ (Nat.sub_le s g)]
    exact h.differs

/-- Only the bytes of the text count. -/
lemma EndsAt.congr (ht : ∀ i, i < n → block i = text i) (he : e < n)
    (h : EndsAt bm icase block e) : EndsAt bm icase text e :=
  Ends.congr (fun i hi => congrArg (fold icase) (ht i (by omega))) h

lemma Leads.congr (ht : ∀ i, i < n → block i = text i) (h : Leads bm icase text n) :
    Leads bm icase block n := by
  intro s g hs hstop hnone
  have hbad : badJump bm block s g = badJump bm text s g := by
    unfold badJump
    rw [ht (s - g) (by omega)]
  obtain ⟨hfits, hahead, hpast⟩ := h s g hs (hstop.congr fun i hi => ht i (by omega))
    fun e he hends => hnone e he (hends.congr (fun i hi => (ht i hi).symm) (by omega))
  rw [hbad]
  exact ⟨hfits, hahead, fun e he hlt hends => hpast e he hlt (hends.congr ht hlt)⟩

section

variable (hgood : bm.goodShift = goodShift bm.pattern bm.patlen)
include hgood

/-- The end of the pattern that was met leads forward, and over no occurrence. -/
lemma goodJump_spec (hstop : Stops bm icase text s g) : s < goodJump bm s g ∧
    goodJump bm s g ≤ s + bm.patlen ∧
    ∀ e, s < e → EndsAt bm icase text e → goodJump bm s g ≤ e := by
  obtain ⟨hpos, hle, hagain⟩ := goodShift_spec bm.pattern hstop.lt
  unfold goodJump
  rw [hgood]
  refine ⟨by omega, by omega, fun e he hends => ?_⟩
  exact again_jump hstop.met hstop.differs hagain hle hends he

/-- A jump goes on, and over no occurrence. -/
theorem jump_spec (hbadle : ∀ c, bm.badShift c ≤ bm.patlen) (hleads : Leads bm icase block n)
    (hshift : unsigned 32 shift = s) (hs : s < n) (hstop : Stops bm icase block s g)
    (hnone : ∀ e, e < s → ¬EndsAt bm icase block e) :
    ∃ s', unsigned 32 (jump bm block shift g) = s' ∧ s < s' ∧ ∀ e, s < e → e < n →
      EndsAt bm icase block e → s' ≤ e := by
  obtain ⟨hfits, hahead, hpast⟩ := hleads s g hs hstop hnone
  obtain ⟨hforward, hle, hover⟩ := goodJump_spec hgood hstop
  have hbad : badJump bm block s g ≤ s + bm.patlen := by
    have hentry := hbadle (block (s - g))
    unfold badJump
    omega
  have hg : g ≤ s := by
    have hwindow := hstop.window
    have hlt := hstop.lt
    omega
  obtain ⟨s', hmax, hone, hhigh⟩ := unsigned_max_signed (w := 31)
    (x := badJump bm block s g) (y := goodJump bm s g) (by omega) (by omega)
  rw [jump_eq hshift hg]
  refine ⟨s', hmax, by omega, fun e he hlt hends => ?_⟩
  have hbadover := hpast e he hlt hends
  have hgoodover := hover e he hends
  omega

-- == the loops

lemma shiftLoop_spec (hbadle : ∀ c, bm.badShift c ≤ bm.patlen) (hleads : Leads bm icase block n)
    (hshift : unsigned 32 shift = s) (hs : bm.patlen ≤ s + 1)
    (hnone : ∀ e, e < s → e < n → ¬EndsAt bm icase block e)
    (hfuel : n < fuel + s) (hpos : 0 < fuel) :
    ∃ shift', (shiftLoop bm icase block n fuel shift = some (.found shift') ∧
        unsigned 32 shift' < n ∧
        EndsAt bm icase block (unsigned 32 shift') ∧
        ∀ e, e < unsigned 32 shift' →
          ¬EndsAt bm icase block e) ∨
      (shiftLoop bm icase block n fuel shift = some (.carried shift') ∧
        ∀ e, e < n → ¬EndsAt bm icase block e) := by
  induction fuel generalizing s shift with
  | zero => omega
  | succ fuel ih =>
    unfold shiftLoop
    by_cases hend : s < n
    · rw [if_pos (hshift.trans_lt hend)]
      have hnothing : Met bm.pattern (fold icase ∘ block) bm.patlen s 0 :=
        fun k hk => absurd hk (Nat.not_lt_zero k)
      have hwindow := mismatch_spec (zero_add _) hs hshift hnothing
      cases hcompare : mismatch bm icase block shift bm.patlen 0 with
      | none =>
        rw [hcompare] at hwindow
        refine ⟨shift, .inl ⟨rfl, ?_⟩⟩
        rw [hshift]
        exact ⟨hend, ends_of_window hs hwindow, fun e he => hnone e he (by omega)⟩
      | some g =>
        rw [hcompare] at hwindow
        have hstop : Stops bm icase block s g := hwindow
        obtain ⟨s', hjump, hlt, hover⟩ := jump_spec hgood hbadle hleads hshift hend hstop
          fun e he => hnone e he (by omega)
        dsimp only
        apply ih hjump (by omega) ?_ (by omega) (by omega)
        intro e he hin hends
        rcases Nat.lt_trichotomy e s with hbefore | rfl | hbehind
        · exact hnone e hbefore hin hends
        · exact hstop.differs (hends.from_end hstop.lt)
        · have hpast := hover e hbehind hin hends
          omega
    · rw [if_neg (by omega)]
      exact ⟨shift, .inr ⟨rfl, fun e he => hnone e (by omega) he⟩⟩

/-- Where every byte has its entry it is enough that `int` holds the jumps: they do not
pass an occurrence, and not the range if the text is not that long. -/
lemma leads_of_badAt (hbad : ∀ i, i < n → BadAt bm icase (text i))
    (hfits : n + bm.patlen ≤ 2 ^ 31 ∨ ∃ e, e < n ∧ e < 2 ^ 31 ∧
      EndsAt bm icase text e) : Leads bm icase text n := by
  intro s g hs hstop hnone
  obtain ⟨hforward, hle, hover⟩ := goodJump_spec hgood hstop
  have hwindow := hstop.window
  have hg := hstop.lt
  have hahead : goodJump bm s g < 2 ^ 31 ∧ s + bm.patlen < 2 ^ 32 := by
    rcases hfits with hfits | ⟨e, he, hlt, hends⟩
    · omega
    · rcases Nat.lt_trichotomy e s with hbefore | rfl | hbehind
      · exact absurd hends (hnone e hbefore)
      · exact absurd (hends.from_end hg) hstop.differs
      · have hpast := hover e hbehind hends
        omega
  refine ⟨hahead.2, .inl hahead.1, fun e he _ hends => ?_⟩
  obtain ⟨hentry, hlast⟩ := hbad (s - g) (by omega)
  have hpast := differs_jump hlast hentry hends he
  unfold badJump
  omega

end

lemma Occurs.last {p : Nat} (hne : pattern ≠ []) (h : Occurs pattern icase text n p) :
    p + pattern.length - 1 < n ∧
      EndsAt (bmInit pattern icase) icase text (p + pattern.length - 1) := by
  have hpos := List.length_pos_iff.mpr hne
  obtain ⟨hroom, hall⟩ := h
  refine ⟨by omega, ?_⟩
  unfold EndsAt
  rw [Nat.sub_add_cancel (by omega)]
  refine ⟨Nat.le_add_left _ _, fun i hi => ?_⟩
  rw [show p + pattern.length - (bmInit pattern icase).patlen = p from Nat.add_sub_cancel ..]
  exact hall i hi

lemma EndsAt.occurs (h : EndsAt (bmInit pattern icase) icase text e) (he : e < n) :
    pattern.length ≤ e + 1 ∧ Occurs pattern icase text n (e + 1 - pattern.length) :=
  ⟨h.1, by have hle : pattern.length ≤ e + 1 := h.1; omega, h.2⟩

-- == the result

/-- What `bm_find` returns. -/
def position : Option Nat → Nat
  | none => uintMax
  | some p => p

lemma bmFind_spec (hne : pattern ≠ []) (hlen : pattern.length < 2 ^ 32) (hn : n < 2 ^ 32)
    (hleads : Leads (bmInit pattern icase) icase text n)
    {next : GetNextBlock} (hd : Delivers next text n) (hone : (next 0).1 = n) :
    ∃ r, FirstFrom (Occurs pattern icase text n) 0 r ∧
      bmFind (bmInit pattern icase) icase next (n + 2) 0 = some (position r) := by
  have hpos := List.length_pos_iff.mpr hne
  have hpatlen : (bmInit pattern icase).patlen = pattern.length := rfl
  have hstart : unsigned 32 (signed 32 (((bmInit pattern icase).patlen : Int) - 1))
      = pattern.length - 1 := by
    rw [unsigned_signed, hpatlen, ← Int.ofNat_one, ← Int.ofNat_sub hpos, unsigned_eq (by omega)]
  unfold bmFind bmLoop
  dsimp only
  rw [hone]
  by_cases hempty : n = 0
  · rw [if_pos hempty]
    refine ⟨none, fun p _ hoccurs => ?_, rfl⟩
    have hroom := hoccurs.1
    omega
  rw [if_neg hempty]
  have hblock : ∀ i, i < n → (next 0).2 i = text i := by
    intro i hi
    have hbyte := (hd.block 0 (by omega)).2.2 i (by omega)
    rwa [zero_add] at hbyte
  have hbefore : ∀ e, e < pattern.length - 1 → e < n →
      ¬EndsAt (bmInit pattern icase) icase (next 0).2 e := by
    intro e he _ hends
    have hle : pattern.length ≤ e + 1 := hends.1
    omega
  have hat : ∀ p, Occurs pattern icase text n p →
      EndsAt (bmInit pattern icase) icase (next 0).2 (p + pattern.length - 1) := by
    intro p hoccurs
    obtain ⟨hlt, hends⟩ := hoccurs.last hne
    exact hends.congr (fun i hi => (hblock i hi).symm) hlt
  have hfuel : n < n + 2 + (pattern.length - 1) := by omega
  obtain ⟨shift, hcases⟩ := shiftLoop_spec rfl (badShift_le pattern icase) (hleads.congr hblock)
    hstart (by omega) hbefore hfuel (by omega)
  rcases hcases with ⟨hloop, hlt, hends, hnone⟩ | ⟨hloop, hnone⟩
  · obtain ⟨hle, hoccurs⟩ := (hends.congr hblock hlt).occurs hlt
    rw [hloop]
    dsimp only
    refine ⟨some (unsigned 32 shift + 1 - pattern.length), ⟨Nat.zero_le _, hoccurs, ?_⟩, ?_⟩
    · intro p _ hoccurs
      by_contra hfirst
      exact hnone _ (by omega) (hat p hoccurs)
    · have hposition : ((0 : Nat) : Int) + (shift - ((bmInit pattern icase).patlen - 1))
          = shift - ((pattern.length - 1 : Nat) : Int) := by omega
      rw [hposition, unsigned_sub_of_le rfl (by omega)]
      exact congrArg some (by omega : _ = unsigned 32 shift + 1 - pattern.length)
  · rw [hloop]
    refine ⟨none, fun p _ hoccurs => ?_, ?_⟩
    · have hroom := hoccurs.1
      exact hnone _ (by omega) (hat p hoccurs)
    · have hlast : (next n).1 = 0 := hd.done n le_rfl
      unfold bmLoop
      dsimp only
      rw [zero_add, Nat.mod_eq_of_lt (by omega), hlast, if_pos rfl]
      rfl

lemma badAt_of_case (pattern : List UInt8) (c : UInt8) :
    BadAt (bmInit pattern false) false c :=
  badAt_bmInit fun h => absurd h Bool.false_ne_true

def oneBlock (text : Nat → UInt8) (n : Nat) : GetNextBlock :=
  fun c => (n - c, fun i => text (c + i))

lemma delivers_oneBlock (text : Nat → UInt8) (n : Nat) : Delivers (oneBlock text n) text n where
  block := by
    intro c hc
    unfold oneBlock
    exact ⟨by omega, by omega, fun i _ => rfl⟩
  done := by
    intro c hc
    exact Nat.sub_eq_zero_of_le hc

lemma FirstFrom.position_eq {occurs : Nat → Prop} {o : Nat} {r r' : Option Nat}
    (h : FirstFrom occurs o r) (h' : FirstFrom occurs o r') : r = r' := by
  rcases r with _ | p <;> rcases r' with _ | p'
  · rfl
  · exact absurd h'.2.1 (h p' h'.1)
  · exact absurd h.2.1 (h' p h.1)
  · rw [le_antisymm (h.2.2 p' h'.1 h'.2.1) (h'.2.2 p h.1 h.2.1)]

/-- `textsearch_next` until it returns `UINT_MAX`: `bm_find` leaves `state->offset`. -/
def bmFindAll (bm : TsBm) (next : GetNextBlock) (fuel offset : Nat) : Nat → Option (List Nat)
  | 0 => none
  | calls + 1 =>
    match bmFind bm false next fuel offset with
    | none => none
    | some p =>
      if p = uintMax then some [] else (bmFindAll bm next fuel offset calls).map (p :: ·)

/-- Every call is like the first. -/
lemma bmFindAll_found {next : GetNextBlock} {p : Nat} (hp : p ≠ uintMax)
    (hbm : bmFind bm false next fuel 0 = some p) (calls : Nat) :
    bmFindAll bm next fuel 0 calls = none := by
  induction calls with
  | zero => rfl
  | succ calls ih =>
    rw [bmFindAll, hbm]
    dsimp only
    rw [if_neg hp, ih]
    rfl

/-- The calls end with the positions that `kmp_find` returns if there are none, and
otherwise they do not end. -/
theorem bmFindAll_ends_iff (pattern : List UInt8) (hne : pattern ≠ [])
    (hlen : pattern.length < 2 ^ 32) (text : Nat → UInt8) (n : Nat) (hn : n < 2 ^ 32)
    (hfits : n + pattern.length ≤ 2 ^ 31 ∨
      ∃ p, Occurs pattern false text n p ∧ p + pattern.length ≤ 2 ^ 31) :
    ∃ ps, Leftmost (Occurs pattern false text n) pattern.length 0 ps ∧
      findAll (kmpInit pattern false) false (fun _ => oneBlock text n) (n + 1) (n + 1) 0 = some ps ∧
      ∀ calls, 0 < calls → bmFindAll (bmInit pattern false) (oneBlock text n) (n + 2) 0 calls
        = if ps = [] then some ps else none := by
  have hd := delivers_oneBlock text n
  obtain ⟨ps, hleft, hkmp⟩ :=
    findAll_spec hne (fun _ => hd) hn false (o := 0) (Nat.lt_succ_self n) (Nat.succ_pos n)
  have hleads : Leads (bmInit pattern false) false text n := by
    refine leads_of_badAt rfl (fun i _ => badAt_of_case pattern _) (hfits.imp_right ?_)
    rintro ⟨p, hoccurs, hle⟩
    obtain ⟨hlt, hends⟩ := hoccurs.last hne
    have hpos := List.length_pos_iff.mpr hne
    exact ⟨_, hlt, by omega, hends⟩
  obtain ⟨r, hfirst, hbm⟩ := bmFind_spec hne hlen hn hleads hd rfl
  refine ⟨ps, hleft, hkmp, fun calls hcalls => ?_⟩
  cases hleft with
  | nil hnone =>
    obtain rfl := hfirst.position_eq hnone
    cases calls with
    | zero => omega
    | succ calls =>
      rw [bmFindAll, hbm]
      rfl
  | @cons _ p _ hsome _ =>
    obtain rfl := hfirst.position_eq hsome
    have hroom := hsome.2.1.1
    have hpos := List.length_pos_iff.mpr hne
    rw [if_neg (List.cons_ne_nil _ _)]
    refine bmFindAll_found ?_ hbm calls
    show p ≠ 2 ^ 32 - 1
    omega

theorem no_c_ends : ∃ ps, Leftmost (Occurs [99] false (fun _ => 97) 2) 1 0 ps ∧
    findAll (kmpInit [99] false) false (fun _ => oneBlock (fun _ => 97) 2) 3 3 0 = some ps ∧
    ∀ calls, 0 < calls → bmFindAll (bmInit [99] false) (oneBlock (fun _ => 97) 2) 4 0 calls
      = if ps = [] then some ps else none :=
  bmFindAll_ends_iff [99] (by decide) (by decide) (fun _ => 97) 2 (by decide) (.inl (by decide))

/-- In `aa` the first `a` is found again in each call. -/
theorem first_a_again :
    findAll (kmpInit [97] false) false (fun _ => oneBlock (fun _ => 97) 2) 3 3 0 = some [0, 1] ∧
    ∀ calls, bmFindAll (bmInit [97] false) (oneBlock (fun _ => 97) 2) 4 0 calls = none :=
  ⟨by decide, bmFindAll_found (p := 0) (by decide) (by decide)⟩

-- == longer texts

variable {last : Nat}

end BoardStack.Textsearch
