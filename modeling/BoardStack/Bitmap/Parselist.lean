/-
What `bitmap_parselist` accepts.

`Listed` is the grammar, of numbers of any length; it is deterministic. A turn of
the loop reads one item of it and sees the numbers modulo `2 ^ 32` (`placed`). So
what is accepted is the lists whose items are below the size when cut down (`low`),
which is the grammar as long as nothing is cut.
-/
import BoardStack.Bitmap.Words

namespace BoardStack.Bitmap

open Base Vsprintf List Nat

-- == the grammar

def IsNumber (t : List UInt8) : Prop := t ≠ [] ∧ ∀ c ∈ t, isdigit c = true

inductive Item : List UInt8 → Nat × Nat → Prop
  | number {t : List UInt8} : IsNumber t → Item t (decimal t, decimal t)
  | range {t t' : List UInt8} : IsNumber t → IsNumber t' →
      Item (t ++ '-'.toUInt8 :: t') (decimal t, decimal t')

def AtEnd (bp : List UInt8) : Prop := charAt bp 0 = 0 ∨ charAt bp 0 = '\n'.toUInt8

/-- A list of items up to the end, with or without a comma there. -/
inductive Listed : List UInt8 → List (Nat × Nat) → Prop
  | last {t rest : List UInt8} {r : Nat × Nat} : Item t r → AtEnd rest →
      Listed (t ++ rest) [r]
  | comma {t rest : List UInt8} {r : Nat × Nat} : Item t r → AtEnd rest →
      Listed (t ++ ','.toUInt8 :: rest) [r]
  | cons {t rest : List UInt8} {r : Nat × Nat} {rs : List (Nat × Nat)} : Item t r →
      Listed rest rs → Listed (t ++ ','.toUInt8 :: rest) (r :: rs)

/-- Ranges of bits below `n`. -/
def Fits (n : Nat) (rs : List (Nat × Nat)) : Prop := ∀ r ∈ rs, r.1 ≤ r.2 ∧ r.2 < n

/-- A range as two `unsigned` hold it. -/
def low (r : Nat × Nat) : Nat × Nat := (r.1 % 2 ^ 32, r.2 % 2 ^ 32)

variable {a : WordSize} {n : Nat} {m m' : Words a} {t t' rest bp : List UInt8} {r : Nat × Nat}
  {rs : List (Nat × Nat)}

lemma isdigit_append (ht : IsNumber t) (rest : List UInt8) :
    isdigit (charAt (t ++ rest) 0) = true := by
  cases t with
  | nil => exact absurd rfl ht.1
  | cons c t => exact ht.2 c mem_cons_self

lemma Item.digit (h : Item t r) (rest : List UInt8) : isdigit (charAt (t ++ rest) 0) = true := by
  cases h with
  | number ht => exact isdigit_append ht rest
  | range ht _ =>
    rw [append_assoc]
    exact isdigit_append ht _

lemma Listed.digit (h : Listed bp rs) : isdigit (charAt bp 0) = true := by
  cases h with
  | last h _ | comma h _ | cons h _ => exact h.digit _

lemma AtEnd.other (h : AtEnd rest) : isdigit (charAt rest 0) = false ∧
    charAt rest 0 ≠ '-'.toUInt8 ∧ charAt rest 0 ≠ ','.toUInt8 := by
  rcases h with h | h <;> rw [h] <;> decide

/-- A number is read up to what is not a digit. -/
lemma span_number (ht : IsNumber t) (hrest : isdigit (charAt rest 0) = false) :
    (t ++ rest).takeWhile isdigit = t ∧ (t ++ rest).dropWhile isdigit = rest := by
  rw [takeWhile_append_of_pos ht.2, dropWhile_append_of_pos ht.2]
  cases rest with
  | nil => exact ⟨append_nil t, rfl⟩
  | cons c rest =>
    have hc : ¬isdigit c = true := Bool.eq_false_iff.mp hrest
    rw [takeWhile_cons_of_neg hc, dropWhile_cons_of_neg hc, append_nil]
    exact ⟨rfl, rfl⟩

lemma Item.first (h : Item t r) (hrest : isdigit (charAt rest 0) = false) :
    decimal ((t ++ rest).takeWhile isdigit) = r.1 := by
  cases h with
  | number ht => rw [(span_number ht hrest).1]
  | range ht _ =>
    rw [append_assoc, cons_append, (span_number ht ?_).1]
    exact (by decide : isdigit '-'.toUInt8 = false)

/-- The item a string starts with, and what follows it. -/
def readItem (bp : List UInt8) : (Nat × Nat) × List UInt8 :=
  let first := decimal (bp.takeWhile isdigit)
  let rest := bp.dropWhile isdigit
  if charAt rest 0 = '-'.toUInt8 then
    ((first, decimal ((rest.drop 1).takeWhile isdigit)), (rest.drop 1).dropWhile isdigit)
  else ((first, first), rest)

lemma Item.read (h : Item t r) (hrest : isdigit (charAt rest 0) = false)
    (hminus : charAt rest 0 ≠ '-'.toUInt8) : readItem (t ++ rest) = (r, rest) := by
  unfold readItem
  cases h with
  | number ht =>
    obtain ⟨htake, hdrop⟩ := span_number ht hrest
    dsimp only
    rw [htake, hdrop, if_neg hminus]
  | @range t t' ht ht' =>
    have hdash : isdigit (charAt ('-'.toUInt8 :: (t' ++ rest)) 0) = false :=
      (by decide : isdigit '-'.toUInt8 = false)
    obtain ⟨htake, hdrop⟩ := span_number ht hdash
    obtain ⟨htake', hdrop'⟩ := span_number ht' hrest
    rw [append_assoc, cons_append]
    dsimp only
    rw [htake, hdrop, if_pos (show charAt ('-'.toUInt8 :: (t' ++ rest)) 0 = '-'.toUInt8 from rfl),
      drop_succ_cons, drop_zero, htake', hdrop']

/-- What stands behind the first item of a list, and the items after it. -/
inductive Goes : List UInt8 → List (Nat × Nat) → Prop
  | stop {rest : List UInt8} : AtEnd rest → Goes rest []
  | comma {rest : List UInt8} : AtEnd rest → Goes (','.toUInt8 :: rest) []
  | more {rest : List UInt8} {rs : List (Nat × Nat)} : Listed rest rs →
      Goes (','.toUInt8 :: rest) rs

lemma comma_other (rest : List UInt8) : isdigit (charAt (','.toUInt8 :: rest) 0) = false ∧
    charAt (','.toUInt8 :: rest) 0 ≠ '-'.toUInt8 :=
  (by decide : isdigit ','.toUInt8 = false ∧ ','.toUInt8 ≠ '-'.toUInt8)

lemma Listed.goes (h : Listed bp rs) :
    ∃ tail, rs = (readItem bp).1 :: tail ∧ Goes (readItem bp).2 tail := by
  cases h with
  | last h hend =>
    rw [h.read hend.other.1 hend.other.2.1]
    exact ⟨[], rfl, .stop hend⟩
  | comma h hend =>
    rw [h.read (comma_other _).1 (comma_other _).2]
    exact ⟨[], rfl, .comma hend⟩
  | cons h hrest =>
    rw [h.read (comma_other _).1 (comma_other _).2]
    exact ⟨_, rfl, .more hrest⟩

lemma Listed.not_atEnd (h : Listed bp rs) : ¬AtEnd bp :=
  fun hend => absurd h.digit (by rw [hend.other.1]; decide)

/-- A string is one list at most. -/
lemma Listed.unique {rs' : List (Nat × Nat)} (h : Listed bp rs) (h' : Listed bp rs') :
    rs = rs' := by
  obtain ⟨tail, rfl, hgoes⟩ := h'.goes
  induction h generalizing tail with
  | last h hend =>
    rw [h.read hend.other.1 hend.other.2.1] at hgoes ⊢
    cases hgoes with
    | stop _ | comma _ => rfl
    | more _ => exact absurd rfl hend.other.2.2
  | comma h hend =>
    rw [h.read (comma_other _).1 (comma_other _).2] at hgoes ⊢
    cases hgoes with
    | stop _ | comma _ => rfl
    | more hmore => exact absurd hend hmore.not_atEnd
  | cons h hrest ih =>
    rw [h.read (comma_other _).1 (comma_other _).2] at hgoes ⊢
    cases hgoes with
    | stop hend => exact absurd rfl hend.other.2.2
    | comma hend => exact absurd hend hrest.not_atEnd
    | more hmore =>
      obtain ⟨tail, rfl, hgoes⟩ := hmore.goes
      exact congrArg _ (ih tail hgoes hmore)

lemma Listed.first (h : Listed bp rs) : ∃ r ∈ rs, decimal (bp.takeWhile isdigit) = r.1 := by
  cases h with
  | last h hend => exact ⟨_, mem_cons_self, h.first hend.other.1⟩
  | comma h _ | cons h _ =>
    exact ⟨_, mem_cons_self, h.first (show isdigit ','.toUInt8 = false by decide)⟩

-- == one turn

lemma testBit_setBits (m : Words a) (first k i : Nat) :
    testBit (setBits m first k) i = (testBit m i || decide (first ≤ i ∧ i < first + k)) := by
  induction k generalizing m first with
  | zero =>
    rw [setBits, decide_eq_false (by omega), Bool.or_false]
  | succ k ih =>
    rw [setBits, ih, testBit_setBit, Bool.or_assoc, ← Bool.decide_or]
    congr 2
    apply propext
    omega

/-- What a turn makes of an item: its numbers are `unsigned`. -/
def placed (n : Nat) (m : Words a) (r : Nat × Nat) (rest : List UInt8) :
    Except Errno (List UInt8 × Words a) :=
  if !(r.1 % 2 ^ 32 ≤ r.2 % 2 ^ 32) then .error .inval
  else if r.2 % 2 ^ 32 ≥ n then .error .range
  else
    .ok (if charAt rest 0 = ','.toUInt8 then rest.drop 1 else rest,
      setBits m (r.1 % 2 ^ 32) (r.2 % 2 ^ 32 + 1 - r.1 % 2 ^ 32))

lemma strtoul_number (ht : IsNumber t) (hrest : isdigit (charAt rest 0) = false) :
    (simpleStrtoul a.bits (t ++ rest) 10).1 % 2 ^ 32 = decimal t % 2 ^ 32 ∧
      (simpleStrtoul a.bits (t ++ rest) 10).2 = rest := by
  have hword : 2 ^ 32 ∣ 2 ^ a.bits := by
    cases a with
    | w32 | w64 => decide
  rw [simpleStrtoul_decimal, (span_number ht hrest).1, (span_number ht hrest).2]
  exact ⟨mod_mod_of_dvd _ hword, rfl⟩

lemma parselistBody_number (ht : IsNumber t) (hrest : isdigit (charAt rest 0) = false)
    (hminus : charAt rest 0 ≠ '-'.toUInt8) (m : Words a) :
    parselistBody n (t ++ rest) m = placed n m (decimal t, decimal t) rest := by
  obtain ⟨hvalue, hend⟩ := strtoul_number (a := a) ht hrest
  unfold parselistBody rangeEnd
  rw [isdigit_append ht]
  dsimp only
  rw [hvalue, hend, if_neg (by decide), if_neg hminus]
  rfl

lemma parselistBody_range (ht : IsNumber t) (ht' : IsNumber t')
    (hrest : isdigit (charAt rest 0) = false) (m : Words a) :
    parselistBody n (t ++ '-'.toUInt8 :: (t' ++ rest)) m
      = placed n m (decimal t, decimal t') rest := by
  have hminus : charAt ('-'.toUInt8 :: (t' ++ rest)) 0 = '-'.toUInt8 := rfl
  obtain ⟨hvalue, hend⟩ := strtoul_number (a := a) ht
    (show isdigit (charAt ('-'.toUInt8 :: (t' ++ rest)) 0) = false by rw [hminus]; decide)
  obtain ⟨hvalue', hend'⟩ := strtoul_number (a := a) ht' hrest
  unfold parselistBody rangeEnd
  rw [isdigit_append ht]
  dsimp only
  rw [hvalue, hend, if_neg (by decide), if_pos hminus, drop_succ_cons, drop_zero,
    isdigit_append ht', if_neg (by decide), hvalue', hend']
  rfl

lemma parselistBody_item (h : Item t r) (hrest : isdigit (charAt rest 0) = false)
    (hminus : charAt rest 0 ≠ '-'.toUInt8) (m : Words a) :
    parselistBody n (t ++ rest) m = placed n m r rest := by
  cases h with
  | number ht => exact parselistBody_number ht hrest hminus m
  | range ht ht' =>
    rw [append_assoc]
    exact parselistBody_range ht ht' hrest m

lemma placed_of_lt (hr : (low r).1 ≤ (low r).2 ∧ (low r).2 < n) (m : Words a)
    (rest : List UInt8) : placed n m r rest
      = .ok (if charAt rest 0 = ','.toUInt8 then rest.drop 1 else rest,
          setBits m (low r).1 ((low r).2 + 1 - (low r).1)) := by
  unfold low at hr ⊢
  unfold placed
  rw [decide_eq_true hr.1, if_neg (by decide), if_neg (Nat.not_le.mpr hr.2)]

-- == what is in the language is accepted

lemma testBit_item (hbits : ∀ i, testBit m' i = true ↔
      testBit (setBits m r.1 (r.2 + 1 - r.1)) i = true ∨ ∃ x ∈ rs, x.1 ≤ i ∧ i ≤ x.2) (i : Nat) :
    testBit m' i = true ↔ testBit m i = true ∨ ∃ x ∈ r :: rs, x.1 ≤ i ∧ i ≤ x.2 := by
  rw [hbits, testBit_setBits, Bool.or_eq_true, decide_eq_true_eq, or_assoc, exists_mem_cons_iff]
  refine or_congr_right (or_congr_left ?_)
  omega

/-- A turn over an item and its comma. -/
lemma parselistLoop_comma (h : Item t r) (hr : (low r).1 ≤ (low r).2 ∧ (low r).2 < n)
    (fuel : Nat) (m : Words a) : parselistLoop n (fuel + 1) (t ++ ','.toUInt8 :: rest) m
      = if charAt rest 0 ≠ 0 ∧ charAt rest 0 ≠ '\n'.toUInt8 then
          parselistLoop n fuel rest (setBits m (low r).1 ((low r).2 + 1 - (low r).1))
        else .ok (setBits m (low r).1 ((low r).2 + 1 - (low r).1)) := by
  have hcomma : charAt (','.toUInt8 :: rest) 0 = ','.toUInt8 := rfl
  rw [parselistLoop, parselistBody_item h (by rw [hcomma]; decide) (by rw [hcomma]; decide),
    placed_of_lt hr, if_pos hcomma]
  rfl

/-- The loop reads a list to its end. -/
theorem parselistLoop_spec (h : Listed bp rs) (hfits : Fits n (rs.map low)) :
    ∀ (fuel : Nat) (m : Words a), bp.length < fuel →
      ∃ m', parselistLoop n fuel bp m = .ok m' ∧ ∀ i, testBit m' i = true ↔
        testBit m i = true ∨ ∃ x ∈ rs.map low, x.1 ≤ i ∧ i ≤ x.2 := by
  induction h with
  | last h hend =>
    intro fuel m hfuel
    rcases fuel with _ | fuel
    · omega
    obtain ⟨hdigit, hminus, hcomma⟩ := hend.other
    refine ⟨_, ?_, testBit_item fun i => (or_iff_left (by simp)).symm⟩
    rw [parselistLoop, parselistBody_item h hdigit hminus, placed_of_lt (hfits _ mem_cons_self),
      if_neg hcomma]
    exact if_neg fun hgo => hend.elim hgo.1 hgo.2
  | comma h hend =>
    intro fuel m hfuel
    rcases fuel with _ | fuel
    · omega
    refine ⟨_, ?_, testBit_item fun i => (or_iff_left (by simp)).symm⟩
    rw [parselistLoop_comma h (hfits _ mem_cons_self)]
    exact if_neg fun hgo => hend.elim hgo.1 hgo.2
  | cons h hrest ih =>
    intro fuel m hfuel
    rcases fuel with _ | fuel
    · omega
    rw [length_append, length_cons] at hfuel
    obtain ⟨m', hloop, hbits⟩ := ih (fun x hx => hfits x (mem_cons_of_mem _ hx)) fuel _ (by omega)
    refine ⟨m', ?_, testBit_item hbits⟩
    rw [parselistLoop_comma h (hfits _ mem_cons_self), if_pos (not_or.mp hrest.not_atEnd)]
    exact hloop

-- == what is accepted is in the language

lemma isNumber_takeWhile (h : isdigit (charAt bp 0) = true) : IsNumber (bp.takeWhile isdigit) := by
  refine ⟨?_, fun c hc => mem_takeWhile_imp hc⟩
  cases bp with
  | nil => exact absurd h (by decide)
  | cons c bp =>
    rw [takeWhile_cons_of_pos (show isdigit c = true from h)]
    exact cons_ne_nil _ _

lemma not_isdigit_dropWhile (bp : List UInt8) :
    isdigit (charAt (bp.dropWhile isdigit) 0) = false := by
  induction bp with
  | nil => decide
  | cons c bp ih =>
    by_cases hc : isdigit c = true
    · rw [dropWhile_cons_of_pos hc]
      exact ih
    · rw [dropWhile_cons_of_neg hc]
      exact Bool.eq_false_iff.mpr hc

lemma eq_cons_of_charAt {c : UInt8} (h : charAt bp 0 = c) (hc : c ≠ 0) : bp = c :: bp.drop 1 := by
  cases bp with
  | nil => exact absurd h.symm hc
  | cons d bp => exact congrArg (· :: bp) h

/-- A turn that goes on has read an item. -/
lemma exists_item {x : List UInt8 × Words a} (h : parselistBody n bp m = .ok x) :
    ∃ t r rest, bp = t ++ rest ∧ Item t r ∧ isdigit (charAt rest 0) = false ∧
      placed n m r rest = .ok x := by
  by_cases hdigit : isdigit (charAt bp 0) = true
  · have ht := isNumber_takeWhile hdigit
    have hend := not_isdigit_dropWhile bp
    have hsplit : bp = bp.takeWhile isdigit ++ bp.dropWhile isdigit :=
      takeWhile_append_dropWhile.symm
    generalize bp.takeWhile isdigit = t at ht hsplit
    generalize bp.dropWhile isdigit = rest at hend hsplit
    subst hsplit
    by_cases hminus : charAt rest 0 = '-'.toUInt8
    · obtain ⟨rest, rfl⟩ : ∃ l, rest = '-'.toUInt8 :: l := ⟨_, eq_cons_of_charAt hminus (by decide)⟩
      by_cases hdigit' : isdigit (charAt rest 0) = true
      · have ht' := isNumber_takeWhile hdigit'
        have hend' := not_isdigit_dropWhile rest
        have hsplit : rest = rest.takeWhile isdigit ++ rest.dropWhile isdigit :=
          takeWhile_append_dropWhile.symm
        rw [hsplit, parselistBody_range ht ht' hend'] at h
        refine ⟨_, _, _, ?_, .range ht ht', hend', h⟩
        rw [append_assoc, cons_append, ← hsplit]
      · exfalso
        unfold parselistBody rangeEnd at h
        dsimp only at h
        rw [(strtoul_number (a := a) ht hend).2, isdigit_append ht, if_neg (by decide),
          if_pos hminus, drop_succ_cons, drop_zero, Bool.eq_false_iff.mpr hdigit',
          if_pos (by decide)] at h
        cases h
    · exact ⟨t, _, rest, rfl, .number ht, hend, parselistBody_number ht hend hminus m ▸ h⟩
  · exfalso
    unfold parselistBody at h
    rw [Bool.eq_false_iff.mpr hdigit, if_pos (by decide)] at h
    cases h

lemma placed_ok {x : List UInt8 × Words a} (h : placed n m r rest = .ok x) :
    ((low r).1 ≤ (low r).2 ∧ (low r).2 < n) ∧
      x.1 = if charAt rest 0 = ','.toUInt8 then rest.drop 1 else rest := by
  unfold placed at h
  unfold low
  split_ifs at h with hle hlt hcomma
  all_goals
    cases h
    exact ⟨⟨by simpa using hle, by omega⟩, by simp [hcomma]⟩

lemma parselistLoop_accepts (fuel : Nat) : ∀ (bp : List UInt8) (m : Words a),
    parselistLoop n fuel bp m = .ok m' → ∃ rs, Listed bp rs ∧ Fits n (rs.map low) := by
  induction fuel with
  | zero => intro bp m h; cases h
  | succ fuel ih =>
    intro bp m h
    rw [parselistLoop] at h
    cases hbody : parselistBody n bp m with
    | error e => rw [hbody] at h; cases h
    | ok x =>
      rw [hbody] at h
      obtain ⟨t, r, rest, rfl, hitem, hdigit, hplaced⟩ := exists_item hbody
      obtain ⟨hfits, hx⟩ := placed_ok hplaced
      have hone : Fits n ([r].map low) := forall_mem_singleton.mpr hfits
      dsimp only at h
      rw [hx] at h
      by_cases hcomma : charAt rest 0 = ','.toUInt8
      · obtain ⟨rest, rfl⟩ : ∃ l, rest = ','.toUInt8 :: l :=
          ⟨_, eq_cons_of_charAt hcomma (by decide)⟩
        split_ifs at h with hgo
        · obtain ⟨rs, hlisted, hrs⟩ := ih rest _ h
          exact ⟨r :: rs, .cons hitem hlisted, forall_mem_cons.mpr ⟨hfits, hrs⟩⟩
        · exact ⟨[r], .comma hitem (by_contra fun h => hgo (not_or.mp h)), hone⟩
      · rw [if_neg hcomma] at h
        split_ifs at h with hgo
        · -- without a comma the next turn finds no digit
          obtain ⟨rs, hlisted, -⟩ := ih rest _ h
          exact absurd hlisted.digit (by rw [hdigit]; decide)
        · exact ⟨[r], .last hitem (by_contra fun h => hgo (not_or.mp h)), hone⟩

-- == the grammar and the code

/-- Numbers that `unsigned` holds are not cut down. -/
lemma map_low (h : ∀ r ∈ rs, r.1 < 2 ^ 32 ∧ r.2 < 2 ^ 32) : rs.map low = rs := by
  conv_rhs => rw [← map_id rs]
  refine map_congr_left fun r hr => ?_
  rw [low, mod_eq_of_lt (h r hr).1, mod_eq_of_lt (h r hr).2, id]

lemma Fits.small (h : Fits n rs) (hn : n < 2147483648) : ∀ r ∈ rs, r.1 < 2 ^ 32 ∧ r.2 < 2 ^ 32 := by
  intro r hr
  obtain ⟨hle, hlt⟩ := h r hr
  omega

lemma bitmapParselist_of_listed (old : Words a) (h : Listed bp rs) (hfits : Fits n (rs.map low)) :
    ∃ m', bitmapParselist bp old n = .ok m' ∧
      ∀ i, i < n → (testBit m' i = true ↔ ∃ r ∈ rs.map low, r.1 ≤ i ∧ i ≤ r.2) := by
  obtain ⟨m', hrun, hbits⟩ := parselistLoop_spec h hfits (bp.length + 1) (bitmapZero old n)
    (lt_succ_self _)
  refine ⟨m', hrun, fun i hi => ?_⟩
  rw [hbits, testBit_bitmapZero old hi]
  exact or_iff_right Bool.false_ne_true

/-- What is accepted is the lists of numbers and ranges below the size, with their bits
set, exactly if no list whose items are below the size when cut down to 32 bits has
a number that needs more. -/
theorem parselist_accepts_iff (bp : List UInt8) (old : Words a) (hn : n < 2147483648) :
    ((∀ rs, Listed bp rs → Fits n rs → ∃ m', bitmapParselist bp old n = .ok m') ∧
      ∀ m', bitmapParselist bp old n = .ok m' → ∃ rs, Listed bp rs ∧ Fits n rs ∧
        ∀ i, i < n → (testBit m' i = true ↔ ∃ r ∈ rs, r.1 ≤ i ∧ i ≤ r.2)) ↔
    ∀ rs, Listed bp rs → Fits n (rs.map low) → ∀ r ∈ rs, r.1 < 2 ^ 32 ∧ r.2 < 2 ^ 32 := by
  constructor
  · rintro ⟨-, haccepted⟩ rs hlisted hlow
    obtain ⟨m', hrun, -⟩ := bitmapParselist_of_listed old hlisted hlow
    obtain ⟨rs', hlisted', hfits, -⟩ := haccepted m' hrun
    rw [hlisted.unique hlisted']
    exact hfits.small hn
  · refine fun hsmall => ⟨fun rs hlisted hfits => ?_, fun m' hrun => ?_⟩
    · obtain ⟨m', hrun, -⟩ := bitmapParselist_of_listed old hlisted
        (by rwa [map_low (hfits.small hn)])
      exact ⟨m', hrun⟩
    · obtain ⟨rs, hlisted, hlow⟩ := parselistLoop_accepts _ _ _ hrun
      obtain ⟨m, hrun', hbits⟩ := bitmapParselist_of_listed old hlisted hlow
      rw [hrun] at hrun'
      cases hrun'
      have hsame := map_low (hsmall rs hlisted hlow)
      rw [hsame] at hlow hbits
      exact ⟨rs, hlisted, hlow, hbits⟩

/-- Bit 0, by its number and as a range, and a number behind the end that is not read. -/
theorem zero_accepted : ∃ m', bitmapParselist (lit "0,0-0,\n4294967296")
      (fun _ => 0 : Words .w32) 1 = .ok m' ∧ testBit m' 0 = true := by
  have hzero : IsNumber ['0'.toUInt8] := ⟨cons_ne_nil _ _, forall_mem_singleton.mpr (by decide)⟩
  have hlisted : Listed (lit "0,0-0,\n4294967296") [(0, 0), (0, 0)] :=
    .cons (.number hzero) (.comma (.range hzero hzero) (.inr rfl))
  have hfits : Fits 1 [(0, 0), (0, 0)] := by simp [Fits]
  obtain ⟨haccepts, haccepted⟩ := (parselist_accepts_iff _ (fun _ => 0 : Words .w32)
    (by decide : 1 < 2147483648)).mpr fun rs hrs _ => hlisted.unique hrs ▸ hfits.small (by decide)
  obtain ⟨m', hrun⟩ := haccepts _ hlisted hfits
  obtain ⟨rs, hrs, -, hbits⟩ := haccepted m' hrun
  rw [← hlisted.unique hrs] at hbits
  exact ⟨m', hrun, (hbits 0 Nat.one_pos).mpr ⟨(0, 0), mem_cons_self, le_rfl, le_rfl⟩⟩

/-- `2 ^ 32` is accepted as bit 0 of one. -/
theorem two_pow_accepted :
    (∃ m', bitmapParselist (lit "4294967296") (fun _ => 0 : Words .w32) 1 = .ok m' ∧
      testBit m' 0 = true) ∧ ¬∃ rs, Listed (lit "4294967296") rs ∧ Fits 1 rs := by
  refine ⟨⟨_, rfl, by decide⟩, ?_⟩
  rintro ⟨rs, hlisted, hfits⟩
  obtain ⟨r, hr, hfirst⟩ := hlisted.first
  have hvalue : decimal ((lit "4294967296").takeWhile isdigit) = 4294967296 := by decide
  have hle := hfits r hr
  omega

end BoardStack.Bitmap
