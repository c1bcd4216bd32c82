/-
Lists of numbers and ranges, there and back, and both round trips.

The printer goes from set bit to set bit and puts out a range whenever the
next one is not adjacent (`ranges`); these ranges are just the set bits
(`mem_ranges_iff`). The parser sets the bits of each range it reads.
-/
import BoardStack.Bitmap.Hex
import BoardStack.Bitmap.Parselist

namespace BoardStack.Bitmap

open Base Vsprintf Function List Int

-- == ranges

/-- The ranges the printer finds, with `rbot` the beginning of the current
one. -/
def rangesLoop {a : WordSize} (m : Words a) (n : Nat) : Nat → Nat → Nat → List (Nat × Nat)
  | 0, _, _ => []
  | fuel + 1, cur, rbot =>
    if cur < n then
      let next := findNextBit m n (cur + 1)
      if next ≥ n ∨ next > cur + 1 then
        (rbot, cur) :: rangesLoop m n fuel next next
      else rangesLoop m n fuel next rbot
    else []

def ranges {a : WordSize} (m : Words a) (n : Nat) : List (Nat × Nat) :=
  rangesLoop m n n (findNextBit m n 0) (findNextBit m n 0)

variable {a : WordSize}

lemma findNextBit_spec (m : Words a) {n offset : Nat} (h : offset ≤ n) :
    offset ≤ findNextBit m n offset ∧ findNextBit m n offset ≤ n ∧ (findNextBit m n offset < n →
        testBit m (findNextBit m n offset) = true) ∧
      ∀ i, offset ≤ i → i < findNextBit m n offset → testBit m i = false := by
  unfold findNextBit
  cases hfind : (List.range' offset (n - offset)).find? (testBit m) with
  | none =>
    rw [List.find?_eq_none] at hfind
    refine ⟨h, le_rfl, fun hlt => absurd hlt (lt_irrefl n), ?_⟩
    intro i hlo hhi
    have hno := hfind i (mem_range'_1.mpr ⟨hlo, by
      have : i < n := hhi
      omega⟩)
    exact Bool.eq_false_iff.mpr hno
  | some x =>
    rw [List.find?_range'_eq_some] at hfind
    obtain ⟨hbit, hmem, hmin⟩ := hfind
    rw [mem_range'_1] at hmem
    refine ⟨hmem.1, ?_, fun _ => hbit, ?_⟩
    · show x ≤ n
      omega
    · intro i hlo hhi
      have hno := hmin i hlo hhi
      rwa [Bool.not_eq_true'] at hno

lemma rangesLoop_spec (m : Words a) {n : Nat} (fuel : Nat) :
    ∀ cur rbot, cur ≤ n → n ≤ cur + fuel → rbot ≤ cur →
      (∀ i, rbot ≤ i → i ≤ cur → i < n → testBit m i = true) →
      (∀ r ∈ rangesLoop m n fuel cur rbot, r.1 ≤ r.2 ∧ r.2 < n) ∧
      ∀ i, i < n → ((∃ r ∈ rangesLoop m n fuel cur rbot, r.1 ≤ i ∧ i ≤ r.2) ↔
          cur < n ∧ rbot ≤ i ∧ testBit m i = true) := by
  induction fuel with
  | zero =>
    intro cur rbot hcur hfuel _ _
    refine ⟨nofun, fun i hi => ⟨?_, fun h => absurd h.1 (by omega)⟩⟩
    rintro ⟨r, hr, -⟩
    cases hr
  | succ fuel ih =>
    intro cur rbot hcur hfuel hrbot hset
    rw [rangesLoop]
    by_cases hlt : cur < n
    · obtain ⟨hlo, hhi, hbit, hclear⟩ := findNextBit_spec m (show cur + 1 ≤ n by omega)
      rw [if_pos hlt]
      generalize findNextBit m n (cur + 1) = next at *
      by_cases hgap : next ≥ n ∨ next > cur + 1
      · rw [if_pos hgap]
        obtain ⟨hwf, hiff⟩ := ih next next hhi (by omega) le_rfl (fun i hi hi' hin => by
            rw [show i = next by omega]
            exact hbit (by omega))
        refine ⟨?_, fun i hi => ?_⟩
        · exact forall_mem_cons.mpr ⟨⟨hrbot, hlt⟩, hwf⟩
        constructor
        · rintro ⟨r, hr, hri⟩
          rcases mem_cons.mp hr with rfl | hr
          · exact ⟨hlt, hri.1, hset i hri.1 hri.2 hi⟩
          · obtain ⟨-, hnext, htest⟩ := (hiff i hi).mp ⟨r, hr, hri⟩
            exact ⟨hlt, by omega, htest⟩
        rintro ⟨-, hri, htest⟩
        by_cases hic : i ≤ cur
        · exact ⟨(rbot, cur), mem_cons_self, hri, hic⟩
        have hnext : next ≤ i := by
          by_contra hno
          simp [hclear i (by omega) (by omega)] at htest
        obtain ⟨r, hr, hri⟩ := (hiff i hi).mpr ⟨by omega, hnext, htest⟩
        exact ⟨r, mem_cons_of_mem _ hr, hri⟩
      · rw [if_neg hgap]
        -- the next bit is adjacent, and the range goes on
        obtain ⟨hwf, hiff⟩ := ih next rbot hhi (by omega) (by omega) (fun i hi hi' hin => by
            by_cases heq : i = next
            · rw [heq]
              exact hbit (by omega)
            · exact hset i hi (by omega) hin)
        refine ⟨hwf, fun i hi => ?_⟩
        rw [hiff i hi]
        constructor
        · rintro ⟨-, hri, htest⟩
          exact ⟨hlt, hri, htest⟩
        · rintro ⟨-, hri, htest⟩
          exact ⟨by omega, hri, htest⟩
    · rw [if_neg hlt]
      refine ⟨nofun, fun i hi => ⟨?_, fun h => absurd h.1 hlt⟩⟩
      rintro ⟨r, hr, -⟩
      cases hr

lemma ranges_wf (m : Words a) (n : Nat) : ∀ r ∈ ranges m n, r.1 ≤ r.2 ∧ r.2 < n := by
  obtain ⟨-, hhi, hbit, -⟩ := findNextBit_spec m (Nat.zero_le n)
  exact (rangesLoop_spec m n _ _ hhi (by omega) le_rfl (fun i hlo hhi' hin => by
      rw [show i = findNextBit m n 0 by omega]
      exact hbit (by omega))).1

/-- The ranges are the set bits. -/
theorem mem_ranges_iff (m : Words a) {n i : Nat} (hi : i < n) :
    (∃ r ∈ ranges m n, r.1 ≤ i ∧ i ≤ r.2) ↔ testBit m i = true := by
  obtain ⟨-, hhi, hbit, hclear⟩ := findNextBit_spec m (Nat.zero_le n)
  have hspec := (rangesLoop_spec m n _ _ hhi (by omega) le_rfl (fun i hlo hhi' hin => by
      rw [show i = findNextBit m n 0 by omega]
      exact hbit (by omega))).2 i hi
  unfold ranges
  rw [hspec]
  constructor
  · exact fun h => h.2.2
  intro htest
  have hle : findNextBit m n 0 ≤ i := by
    by_contra hno
    simp [hclear i (Nat.zero_le i) (by omega)] at htest
  exact ⟨by omega, hle, htest⟩

-- == printing

def rangeText (r : Nat × Nat) : List UInt8 :=
  if r.1 = r.2 then numeral 10 0 r.1
  else numeral 10 0 r.1 ++ (lit "-" ++ numeral 10 0 r.2)

/-- The text of ranges, behind others if `started`. -/
def listText : Bool → List (Nat × Nat) → List UInt8
  | _, [] => []
  | started, r :: rs =>
    (if started then comma else []) ++ (rangeText r ++ listText true rs)

lemma append_listText (text : List UInt8) (started : Bool) (r : Nat × Nat)
    (rs : List (Nat × Nat)) :
    text ++ listText started (r :: rs) = (text ++ ((if started then comma else []) ++ rangeText r))
          ++ listText true rs := by
  rw [listText, append_assoc, append_assoc]

lemma numeral_ne_nil (n : Nat) : numeral 10 0 n ≠ [] := by
  unfold numeral numeralDigits
  split
  · simp
  · rename_i hne
    simp [Nat.digits_eq_nil_iff_eq_zero, hne]

lemma rangeText_ne_nil (r : Nat × Nat) : rangeText r ≠ [] := by
  unfold rangeText
  split
  · exact numeral_ne_nil r.1
  · simp [numeral_ne_nil]

section

variable {env : Env} {buf buflen : Nat} {text : List UInt8}
variable {n : Nat} {r : Nat × Nat} {a : WordSize}
variable {mem : Nat → UInt8}
variable (hbuflen : buflen < 2147483648)
variable (hend : buf + buflen < 2 ^ env.word.bits)
include hbuflen hend

lemma emit_spec {fmt : Format} {args : List Arg} {piece : List UInt8}
    (hprints : Prints env ⟨fmt.chars, {}, args⟩ piece) (hfits : text.length + piece.length < buflen)
    (hchars : ∀ i c, text[i]? = some c → mem (buf + i) = c) :
    ∃ mem', emit env buf buflen fmt args text.length mem
        = some (((text ++ piece).length : Int), mem') ∧
      HoldsString mem' buf (text ++ piece) := by
  obtain ⟨mem', hrun, hholds⟩ := scnprintf_append hbuflen hend hfits hchars hprints
  have hroom : unsigned env.word.bits (int ((buflen : Int) - text.length))
      = buflen - text.length := by
    rw [← ofNat_sub (by omega), int_natCast (by omega)]
    exact unsigned_eq (by omega)
  have hlen : int ((text.length : Int) + (piece.length : Nat))
      = ((text ++ piece).length : Nat) := by
    rw [← natCast_add, ← length_append]
    exact int_natCast (by rw [length_append]; omega)
  refine ⟨mem', ?_, hholds⟩
  unfold emit
  rw [posAt_eq (by omega), hroom, hrun, Option.map_some, hlen]

lemma emitRange_spec (hr : r.1 ≤ r.2) (hr' : r.2 < 2147483648)
    (hfits : text.length + (rangeText r).length < buflen)
    (hchars : ∀ i c, text[i]? = some c → mem (buf + i) = c) :
    ∃ mem', (if (r.1 : Int) = r.2 then emit env buf buflen numberFormat [.int r.1] text.length mem
        else emit env buf buflen rangeFormat [.int r.1, .int r.2] text.length
          mem) = some (((text ++ rangeText r).length : Int), mem') ∧
      HoldsString mem' buf (text ++ rangeText r) := by
  unfold rangeText at hfits ⊢
  by_cases heq : r.1 = r.2
  · rw [if_pos heq] at hfits ⊢
    rw [if_pos (show (r.1 : Int) = r.2 by omega)]
    have hprints : Prints env ⟨numberFormat.chars, {}, [.int r.1]⟩
        (numeral 10 0 r.1) := prints_dec env (by omega)
    exact emit_spec hbuflen hend hprints hfits hchars
  rw [if_neg heq] at hfits ⊢
  rw [if_neg (by omega)]
  have hprints : Prints env ⟨rangeFormat.chars, {}, [.int r.1, .int r.2]⟩
      (numeral 10 0 r.1 ++ (lit "-" ++ numeral 10 0 r.2)) :=
    prints_range env (by omega) (by omega)
  exact emit_spec hbuflen hend hprints hfits hchars

/-- One range, behind a comma unless it is the first. -/
lemma bscnlEmit_spec (hr : r.1 ≤ r.2) (hr' : r.2 < 2147483648)
    (hfits : text.length + ((if !text.isEmpty then comma else []) ++ rangeText r).length < buflen)
    (hchars : ∀ i c, text[i]? = some c → mem (buf + i) = c) :
    ∃ mem', bscnlEmit env buf buflen r.1 r.2 text.length mem
        = some (((text ++ ((if !text.isEmpty then comma else []) ++
            rangeText r)).length : Int), mem') ∧
      HoldsString mem' buf (text ++ ((if !text.isEmpty then comma else []) ++ rangeText r)) := by
  unfold bscnlEmit
  cases text with
  | nil =>
    rw [if_neg (by decide), Option.bind_some]
    exact emitRange_spec hbuflen hend hr hr' hfits hchars
  | cons c text =>
    have hsep : (if !(c :: text).isEmpty then comma else []) = comma := rfl
    rw [hsep, length_append] at hfits
    rw [hsep, ← append_assoc]
    have hprints : Prints env ⟨commaFormat.chars, {}, []⟩ comma := prints_comma env
    obtain ⟨mem1, hrun1, hholds1⟩ := emit_spec hbuflen hend hprints (by omega) hchars
    rw [if_pos (by rw [length_cons]; omega), hrun1, Option.bind_some]
    exact emitRange_spec hbuflen hend hr hr' (by rw [length_append]; omega) hholds1.chars

/-- The loop prints the ranges. -/
theorem listLoop_spec {m : Words env.word} (hn : n < 2147483648) :
    ∀ (fuel cur rbot : Nat) (text : List UInt8) (mem : Nat → UInt8),
      (∀ r ∈ rangesLoop m n fuel cur rbot, r.1 ≤ r.2 ∧ r.2 < n) →
      (text ++ listText (!text.isEmpty) (rangesLoop m n fuel cur rbot)).length < buflen →
      HoldsString mem buf text →
      ∃ mem', listLoop env m n buf buflen fuel cur rbot text.length mem
          = some (((text ++ listText (!text.isEmpty)
              (rangesLoop m n fuel cur rbot)).length : Int), mem') ∧
        HoldsString mem' buf (text ++ listText (!text.isEmpty) (rangesLoop m n fuel cur rbot)) := by
  intro fuel
  induction fuel with
  | zero =>
    intro cur rbot text mem _ _ hholds
    rw [listLoop, rangesLoop, listText, append_nil]
    exact ⟨mem, rfl, hholds⟩
  | succ fuel ih =>
    intro cur rbot text mem hwf hfits hholds
    rw [rangesLoop] at hwf hfits ⊢
    rw [listLoop]
    by_cases hcur : cur < n
    · rw [if_pos hcur] at hwf hfits ⊢
      rw [if_pos hcur]
      generalize findNextBit m n (cur + 1) = next at *
      by_cases hgap : next ≥ n ∨ next > cur + 1
      · rw [if_pos hgap] at hwf hfits ⊢
        rw [if_pos hgap]
        obtain ⟨hr, hr'⟩ := hwf _ mem_cons_self
        rw [append_listText] at hfits ⊢
        have hlen := hfits
        rw [length_append, length_append] at hlen
        obtain ⟨mem1, hrun, hholds1⟩ := bscnlEmit_spec hbuflen hend hr
          (by omega) (by omega) hholds.chars
        rw [hrun, Option.bind_some]
        have hne : (text ++ ((if !text.isEmpty then comma else []) ++
            rangeText (rbot, cur))).isEmpty = false := by
          simp [rangeText_ne_nil]
        have hrest := ih next next _ mem1 (fun r h => hwf r (mem_cons_of_mem _ h))
          (by rw [hne]; exact hfits) hholds1
        rw [hne, Bool.not_false] at hrest
        exact hrest
      · rw [if_neg hgap] at hwf hfits ⊢
        rw [if_neg hgap]
        exact ih next rbot text mem hwf hfits hholds
    · rw [if_neg hcur] at hfits ⊢
      rw [if_neg hcur, listText, append_nil]
      exact ⟨mem, rfl, hholds⟩

end

-- == parsing

lemma item_rangeText (r : Nat × Nat) : Item (rangeText r) r := by
  have hnumber : ∀ n, IsNumber (numeral 10 0 n) := fun n =>
    ⟨numeral_ne_nil n, isdigit_numeral⟩
  unfold rangeText
  split
  · rename_i heq
    have hitem := Item.number (hnumber r.1)
    rw [decimal_numeral] at hitem
    exact (show (r.1, r.1) = r by rw [Prod.ext_iff]; exact ⟨rfl, heq⟩) ▸ hitem
  · have hitem := Item.range (hnumber r.1) (hnumber r.2)
    rw [decimal_numeral, decimal_numeral] at hitem
    exact hitem

lemma listed_listText (r : Nat × Nat) (rs : List (Nat × Nat)) :
    Listed (listText false (r :: rs)) (r :: rs) := by
  induction rs generalizing r with
  | nil => exact (.last (item_rangeText r) (.inl rfl) : Listed (rangeText r ++ []) [r])
  | cons r' rs ih =>
    rw [listText, listText, if_neg Bool.false_ne_true, if_pos rfl,
      show comma = [','.toUInt8] by decide]
    exact .cons (item_rangeText r) (ih r')

-- == round trips

variable {mem : Nat → UInt8}

lemma bytes_eq {size : Nat} (h : HoldsString mem buf text) (hlen : text.length ≤ size) :
    ∃ tail, (tail = [] ∧ size = text.length ∨ ∃ more, tail = 0 :: more) ∧
      (List.range size).map (fun i => mem (buf + i)) = text ++ tail := by
  obtain ⟨k, rfl⟩ := Nat.exists_eq_add_of_le hlen
  have htext : (List.range text.length).map (fun i => mem (buf + i)) = text := by
    apply List.ext_getElem?
    intro i
    rw [List.getElem?_map]
    by_cases hi : i < text.length
    · rw [List.getElem?_range hi, Option.map_some, List.getElem?_eq_getElem hi,
        h.chars i _ (List.getElem?_eq_getElem hi)]
    · rw [List.getElem?_eq_none (by rw [length_range]; omega), List.getElem?_eq_none (by omega)]
      rfl
  rw [range_add, map_append, htext]
  refine ⟨_, ?_, rfl⟩
  cases k with
  | zero => exact .inl ⟨rfl, rfl⟩
  | succ k =>
    right
    rw [range_succ_eq_map, map_cons, map_cons, add_zero, h.nul]
    exact ⟨_, rfl⟩

lemma cString_eq {size : Nat} (h : HoldsString mem buf text) (hlen : text.length < size)
    (hnul : 0 ∉ text) : cString (fun i => mem (buf + i)) size = text := by
  obtain ⟨tail, htail, hbytes⟩ := bytes_eq h (le_of_lt hlen)
  have hall : ∀ c ∈ text, decide (c ≠ 0) = true := by
    intro c hc
    apply decide_eq_true
    rintro rfl
    exact hnul hc
  unfold cString
  rw [hbytes, takeWhile_append_of_pos hall]
  rcases htail with ⟨-, hsize⟩ | ⟨more, rfl⟩
  · omega
  · rw [takeWhile_cons_of_neg (by decide), append_nil]

lemma zero_notMem_listText (started : Bool) (rs : List (Nat × Nat)) : 0 ∉ listText started rs := by
  have hnumeral : ∀ n, 0 ∉ numeral 10 0 n := by
    intro n h
    obtain ⟨d, hd, hzero⟩ := mem_map.mp h
    have hlt := numeralDigits_lt (by decide) d hd
    interval_cases d <;> exact absurd hzero (by decide)
  have hrange : ∀ r, 0 ∉ rangeText r := by
    intro r
    unfold rangeText
    split
    · exact hnumeral r.1
    rw [mem_append, mem_append]
    rintro (h | h | h)
    · exact hnumeral r.1 h
    · exact absurd h (by decide)
    · exact hnumeral r.2 h
  induction rs generalizing started with
  | nil => exact not_mem_nil
  | cons r rs ih =>
    rw [listText, mem_append, mem_append]
    rintro (h | h | h)
    · cases started with
      | false => cases h
      | true => exact absurd h (by decide)
    · exact hrange r h
    · exact ih true h

/-- Bitmaps survive printing and parsing, in hexadecimal and, unless they
are empty, as lists, if the text with its NUL fits the buffer. Of the buffer,
the parser may get the text alone or any part that has the NUL. -/
theorem bitmap_text_roundTrip (env : Env) (mem : Nat → UInt8) (buf buflen n : Nat)
    (m old : Words env.word) (hpos : 1 ≤ n) (hn : n < 2147483648) (hbuflen : buflen < 2147483648)
    (hend : buf + buflen < 2 ^ env.word.bits) :
    ((hexText (value m n) (chunks n) (topBits n) []).length < buflen →
      ∃ len mem', bitmapScnprintf env mem buf buflen m n = some (len, mem') ∧
        ∀ size : Nat, len ≤ size → ∃ m',
          bitmapParse ((List.range size).map fun i => some (mem' (buf + i))) old n = .ok m' ∧
          ∀ i, i < n → testBit m' i = testBit m i) ∧
    ((∃ i, i < n ∧ testBit m i = true) → (listText false (ranges m n)).length < buflen →
      ∃ len mem', bitmapScnlistprintf env mem buf buflen m n = some (len, mem') ∧
        ∃ m', bitmapParselist (cString (fun i => mem' (buf + i)) buflen) old n = .ok m' ∧
          ∀ i, i < n → testBit m' i = testBit m i) := by
  constructor
  · intro hfits
    have htop : 0 < topBits n ∧ topBits n ≤ 32 ∧
        chunkSz * chunks n ≤ n + (chunkSz - topBits n) := by
      unfold topBits chunks chunkSz
      split <;> omega
    obtain ⟨mem', hprint, hholds⟩ := hexLoop_spec (represents_value m n)
      hbuflen hend (chunks n) (topBits n) [] [] mem htop.1 htop.2.1 htop.2.2
      (by rw [length_nil]; omega) nofun
      (fun h => by unfold chunks at h; omega)
    rw [nil_append] at hprint hholds
    refine ⟨(hexText (value m n) (chunks n) (topBits n) []).length, mem', ?_, fun size hsize => ?_⟩
    · unfold bitmapScnprintf
      dsimp only
      rw [first_chunk hpos hn]
      exact hprint
    obtain ⟨tail, htail, hbytes⟩ := bytes_eq hholds (ofNat_le.mp hsize)
    have hends : Ends (tail.map some) := by
      rcases htail with ⟨rfl, -⟩ | ⟨more, rfl⟩
      · exact .inl rfl
      · exact .inr ⟨_, rfl⟩
    obtain ⟨m', hparse, hm'⟩ := bitmapParse_hexText hpos hn (value_lt m n) old hends
    refine ⟨m', ?_, fun i hi => ?_⟩
    · rw [← hparse, ← map_append, ← hbytes, map_map]
      rfl
    · rw [hm' i hi, represents_value m n i hi]
  · rintro ⟨i0, hi0, hset⟩ hfits
    have hholds0 : HoldsString (update mem buf 0) buf [] := ⟨nofun, update_self _ _ _⟩
    obtain ⟨mem', hprint, hholds⟩ := listLoop_spec hbuflen hend hn n
      (findNextBit m n 0) (findNextBit m n 0) [] (update mem buf 0)
      (ranges_wf m n) hfits hholds0
    refine ⟨(listText false (ranges m n)).length, mem', ?_, ?_⟩
    · unfold bitmapScnlistprintf
      rw [if_neg (by omega), int_natCast hbuflen]
      exact hprint
    have hstring : cString (fun i => mem' (buf + i)) buflen = listText false (ranges m n) :=
      cString_eq hholds hfits (zero_notMem_listText false _)
    have hwf := ranges_wf m n
    have hiff := fun i (hi : i < n) => mem_ranges_iff m hi
    rw [hstring]
    generalize ranges m n = rs at hwf hiff
    cases rs with
    | nil =>
      obtain ⟨r, hr, -⟩ := (hiff i0 hi0).mpr hset
      cases hr
    | cons r rs =>
      have hfits : Fits n (r :: rs) := hwf
      have hlow := map_low (hfits.small hn)
      obtain ⟨m', hparse, hbits⟩ := bitmapParselist_of_listed old (listed_listText r rs)
        (by rwa [hlow])
      refine ⟨m', hparse, fun i hi => ?_⟩
      rw [Bool.eq_iff_iff, hbits i hi, hlow]
      exact hiff i hi

/-- Bits 0 to 2 and 35 of 40. -/
def fourBits : Words board.word := fun k =>
  if k = 0 then 7 else if k = 1 then 8 else 0

def noBits : Words board.word := fun _ => 0

theorem fourBits_roundTrip :
    (∃ len mem', bitmapScnprintf board (fun _ => 0) 4096 64 fourBits 40 = some (len, mem') ∧
      ∀ size : Nat, len ≤ size → ∃ m',
        bitmapParse ((List.range size).map fun i => some (mem' (4096 + i))) noBits 40 = .ok m' ∧
        ∀ i, i < 40 → testBit m' i = testBit fourBits i) ∧
    ∃ len mem', bitmapScnlistprintf board (fun _ => 0) 4096 64 fourBits 40 = some (len, mem') ∧
      ∃ m', bitmapParselist (cString (fun i => mem' (4096 + i)) 64) noBits 40 = .ok m' ∧
        ∀ i, i < 40 → testBit m' i = testBit fourBits i := by
  have h := bitmap_text_roundTrip board (fun _ => 0) 4096 64 40 fourBits
    noBits (by decide) (by decide) (by decide) (by decide)
  exact ⟨h.1 (by decide), h.2 ⟨0, by decide, by decide⟩ (by decide +kernel)⟩

end BoardStack.Bitmap
