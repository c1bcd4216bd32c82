/-
Text search with a prefix table (lib/ts_kmp.c).

The text comes in blocks: `next consumed` is the block that `get_next_block`
delivers at `consumed`, its length and its bytes. Positions are of 32 bits.
The state of the search is carried from block to block, so what is found does
not depend on where the blocks end.
-/
import BoardStack.Base.Border
import Mathlib.Data.List.Basic

namespace BoardStack.Textsearch

open Base List

-- == characters

/-- `islower`, after the table `_ctype`. -/
def islower (c : UInt8) : Bool := (97 ≤ c && c ≤ 122) || (223 ≤ c && c ≤ 246) || 248 ≤ c

def toupper (c : UInt8) : UInt8 := if islower c then c - (97 - 65) else c

/-- `icase ? toupper(c) : c`. -/
def fold (icase : Bool) (c : UInt8) : UInt8 := if icase then toupper c else c

def uintMax : Nat := 2 ^ 32 - 1

-- == the code

/-- `get_next_block`: the length and the bytes of the block at an offset. -/
abbrev GetNextBlock := Nat → Nat × (Nat → UInt8)

structure TsKmp where
  pattern : Nat → UInt8
  patternLen : Nat
  prefixTbl : Nat → Nat

/-- `kmp_init`: `compute_prefix_tbl` compares the folded pattern, and the pattern
is stored folded. The memory is zeroed when it is allocated, and the table is
made from its second entry on. -/
def kmpInit (pattern : List UInt8) (icase : Bool) : TsKmp where
  pattern := fun i => fold icase (pattern.getD i 0)
  patternLen := pattern.length
  prefixTbl := prefixLoop (fun i => fold icase (pattern.getD i 0))
    (pattern.length - 1) 1 0 fun _ => 0

/-- How a block ends: the pattern ends at byte `i`, or `q` is carried on. -/
inductive Scanned
  | found (i : Nat)
  | carried (q : Nat)
deriving DecidableEq, Repr

/-- `for (i = 0; i < text_len; i++)`, from `i` on; the argument is how many bytes
are left. -/
def scanBlock (kmp : TsKmp) (icase : Bool) (text : Nat → UInt8) : Nat → Nat → Nat → Scanned
  | 0, _, q => .carried q
  | left + 1, i, q =>
    let q := advance kmp.pattern kmp.prefixTbl (fold icase (text i)) q
    if q = kmp.patternLen then .found i
    else scanBlock kmp icase text left (i + 1) q

/-- `for (;;)`: what is returned, and `state->offset`. -/
def kmpLoop (kmp : TsKmp) (icase : Bool) (next : GetNextBlock) (offset : Nat) :
    Nat → Nat → Nat → Option (Nat × Nat)
  | 0, _, _ => none
  | fuel + 1, consumed, q =>
    let block := next consumed
    if block.1 = 0 then some (uintMax, offset)
    else
      match scanBlock kmp icase block.2 block.1 0 q with
      | .found i =>
        let offset := (consumed + i + 1) % 2 ^ 32
        some ((offset + 2 ^ 32 - kmp.patternLen % 2 ^ 32) % 2 ^ 32, offset)
      | .carried q =>
        kmpLoop kmp icase next offset fuel ((consumed + block.1) % 2 ^ 32) q

/-- `kmp_find`, started at an offset. -/
def kmpFind (kmp : TsKmp) (icase : Bool) (next : GetNextBlock)
    (fuel offset : Nat) : Option (Nat × Nat) :=
  kmpLoop kmp icase next offset fuel offset 0

-- == the specification

/-- A text of `n` bytes that is delivered in blocks, none of them empty. -/
structure Delivers (next : GetNextBlock) (text : Nat → UInt8) (n : Nat) : Prop where
  block : ∀ c, c < n → 0 < (next c).1 ∧ c + (next c).1 ≤ n ∧
    ∀ i, i < (next c).1 → (next c).2 i = text (c + i)
  done : ∀ c, n ≤ c → (next c).1 = 0

/-- The pattern occurs in the text at `p`. -/
def Occurs (pattern : List UInt8) (icase : Bool) (text : Nat → UInt8) (n p : Nat) : Prop :=
  p + pattern.length ≤ n ∧ ∀ i, i < pattern.length →
    fold icase (text (p + i)) = fold icase (pattern.getD i 0)

/-- The first position from `o` on, or that there is none. -/
def FirstFrom (occurs : Nat → Prop) (o : Nat) : Option Nat → Prop
  | none => ∀ p, o ≤ p → ¬occurs p
  | some p => o ≤ p ∧ occurs p ∧ ∀ p', o ≤ p' → occurs p' → p ≤ p'

def answer (m o : Nat) : Option Nat → Nat × Nat
  | none => (uintMax, o)
  | some p => (p, p + m)

variable {pattern : List UInt8} {icase : Bool} {next : GetNextBlock}
  {text : Nat → UInt8} {n o e q : Nat}

-- == the blocks

def foldedFrom (icase : Bool) (text : Nat → UInt8) (o : Nat) : Nat → UInt8 :=
  fun i => fold icase (text (o + i))

/-- The state of a search that has not found the pattern up to `e`. -/
structure Searching (pattern : List UInt8) (icase : Bool) (text : Nat → UInt8)
    (o e q : Nat) : Prop where
  longest : Longest (kmpInit pattern icase).pattern (foldedFrom icase text o) pattern.length e q
  short : q < pattern.length
  none : ∀ e', e' ≤ e → ¬Ends (kmpInit pattern icase).pattern (foldedFrom icase text o)
      pattern.length e'

lemma borders_kmpInit (hne : pattern ≠ []) (icase : Bool) :
    Borders (kmpInit pattern icase).pattern (kmpInit pattern icase).prefixTbl
      pattern.length := by
  have hpos := length_pos_iff.mpr hne
  have hborders : Borders (kmpInit pattern icase).pattern
      (kmpInit pattern icase).prefixTbl (pattern.length - 1 + 1) :=
    prefixLoop_correct rfl (pattern.length - 1)
  rwa [Nat.sub_add_cancel hpos] at hborders

lemma Searching.step (hne : pattern ≠ []) (h : Searching pattern icase text o e q) {c : UInt8}
    (hc : c = text (o + e)) :
    let q' := advance (kmpInit pattern icase).pattern
      (kmpInit pattern icase).prefixTbl (fold icase c) q
    if q' = pattern.length then
      Ends (kmpInit pattern icase).pattern (foldedFrom icase text o) pattern.length (e + 1)
    else Searching pattern icase text o (e + 1) q' := by
  intro q'
  have hb := borders_kmpInit hne icase
  have hshort := h.short
  have hfold : fold icase c = foldedFrom icase text o e := by
    rw [hc]
    rfl
  have hnext : Longest (kmpInit pattern icase).pattern (foldedFrom icase text o)
      pattern.length (e + 1) q' := by
    have hadvance := h.longest.advance hb (by omega)
    rwa [← hfold] at hadvance
  have hle : q' ≤ q + 1 := advance_le h.longest.ends hb (by omega) _
  split_ifs with hq
  · rw [← hq]
    exact hnext.ends
  have hlt : q' < pattern.length := by omega
  refine ⟨hnext, hlt, fun e' he' => ?_⟩
  by_cases hlast : e' = e + 1
  · rw [hlast]
    intro hends
    have hfull := hnext.most _ le_rfl hends
    omega
  · exact h.none e' (by omega)

lemma scanBlock_spec (hne : pattern ≠ []) {block : Nat → UInt8} {left i c : Nat}
    (hblock : ∀ j, i ≤ j → j < i + left → block j = text (o + c + j))
    (h : Searching pattern icase text o (c + i) q) :
    match scanBlock (kmpInit pattern icase) icase block left i q with
    | .found j => i ≤ j ∧ j < i + left ∧
        Ends (kmpInit pattern icase).pattern (foldedFrom icase text o) pattern.length (c + j + 1) ∧
        ∀ e', e' ≤ c + j → ¬Ends (kmpInit pattern icase).pattern (foldedFrom icase text o)
            pattern.length e'
    | .carried q' => Searching pattern icase text o (c + i + left) q' := by
  induction left generalizing i q with
  | zero => exact h
  | succ left ih =>
    have hbyte : block i = text (o + (c + i)) := by rw [hblock i le_rfl (by omega), add_assoc]
    have hstep := h.step hne hbyte
    unfold scanBlock
    dsimp only at hstep ⊢
    have hlen : (kmpInit pattern icase).patternLen = pattern.length := rfl
    rw [hlen]
    split_ifs at hstep ⊢ with hq
    · exact ⟨le_rfl, by omega, hstep, h.none⟩
    have hrest := ih (i := i + 1) (fun j hlo hhi => hblock j (by omega) (by omega)) hstep
    generalize scanBlock (kmpInit pattern icase) icase block left (i + 1) _ = r at hrest ⊢
    cases r with
    | found j =>
      obtain ⟨hlo, hhi, hends, hnone⟩ := hrest
      exact ⟨by omega, by omega, hends, hnone⟩
    | carried q' =>
      rw [show c + i + (left + 1) = c + (i + 1) + left by omega]
      exact hrest

-- == the search

lemma Occurs.ends {p : Nat} (h : Occurs pattern icase text n p) (ho : o ≤ p) :
    Ends (kmpInit pattern icase).pattern (foldedFrom icase text o) pattern.length
      (p - o + pattern.length) := by
  refine ⟨Nat.le_add_left _ _, fun i hi => ?_⟩
  rw [Nat.add_sub_cancel]
  unfold foldedFrom
  rw [show o + (p - o + i) = p + i by omega]
  exact h.2 i hi

lemma Occurs.of_ends (hends : Ends (kmpInit pattern icase).pattern
      (foldedFrom icase text o) pattern.length e) (hn : o + e ≤ n) :
    Occurs pattern icase text n (o + e - pattern.length) := by
  have hle := hends.1
  refine ⟨by omega, fun i hi => ?_⟩
  have hat := hends.2 i hi
  unfold foldedFrom at hat
  rwa [show o + (e - pattern.length + i) = o + e - pattern.length + i by omega] at hat

lemma kmpLoop_spec (hne : pattern ≠ []) (hd : Delivers next text n)
    (hn : n < 2 ^ 32) {fuel : Nat} (h : Searching pattern icase text o e q)
    (hfuel : n < fuel + (o + e)) (hpos : 0 < fuel) :
    ∃ r, FirstFrom (Occurs pattern icase text n) o r ∧
      kmpLoop (kmpInit pattern icase) icase next o fuel (o + e) q
        = some (answer pattern.length o r) := by
  induction fuel generalizing e q with
  | zero => omega
  | succ fuel ih =>
    unfold kmpLoop
    by_cases hend : n ≤ o + e
    · -- the text is used up
      rw [if_pos (hd.done _ hend)]
      refine ⟨none, fun p hp hoccurs => ?_, rfl⟩
      have hroom := hoccurs.1
      exact h.none _ (by omega) (hoccurs.ends hp)
    obtain ⟨hlen, hfits, hbytes⟩ := hd.block (o + e) (by omega)
    rw [if_neg (by omega)]
    have hblock : ∀ j, 0 ≤ j → j < 0 + (next (o + e)).1 → (next (o + e)).2 j = text (o + e + j) :=
      fun j _ hj => hbytes j (by omega)
    have hscan := scanBlock_spec (c := e) hne hblock h
    generalize scanBlock (kmpInit pattern icase) icase (next (o + e)).2
      (next (o + e)).1 0 q = r at hscan ⊢
    cases r with
    | found j =>
      obtain ⟨-, hj, hends, hnone⟩ := hscan
      have hle := hends.1
      have hplen : (kmpInit pattern icase).patternLen = pattern.length := rfl
      refine ⟨some (o + (e + j + 1) - pattern.length), ⟨by omega,
        Occurs.of_ends hends (by omega), fun p' hp' hoccurs => ?_⟩, ?_⟩
      · by_contra hlt
        exact hnone _ (by omega) (hoccurs.ends hp')
      · dsimp only [answer]
        rw [hplen]
        congr 1
        apply Prod.ext <;> dsimp only <;> omega
    | carried q' =>
      dsimp only
      rw [Nat.mod_eq_of_lt (by omega), add_assoc]
      exact ih hscan (by omega) (by omega)

lemma kmpFind_spec (hne : pattern ≠ []) (hd : Delivers next text n)
    (hn : n < 2 ^ 32) (icase : Bool) (o : Nat) :
    ∃ r, FirstFrom (Occurs pattern icase text n) o r ∧
      kmpFind (kmpInit pattern icase) icase next (n + 1) o = some (answer pattern.length o r) := by
  have hpos := length_pos_iff.mpr hne
  have hstart : Searching pattern icase text o 0 0 := by
    refine ⟨longest_zero _ _ _, hpos, fun e' he' hends => ?_⟩
    have hle := hends.1
    omega
  exact kmpLoop_spec hne hd hn hstart (by omega) (by omega)

-- == repeated calls

/-- Call `kmp_find` until it returns `UINT_MAX`. The blocks may end elsewhere in
each call. -/
def findAll (kmp : TsKmp) (icase : Bool) (next : Nat → GetNextBlock) (fuel : Nat) :
    Nat → Nat → Option (List Nat)
  | 0, _ => none
  | calls + 1, offset =>
    match kmpFind kmp icase (next calls) fuel offset with
    | none => none
    | some (p, offset) =>
      if p = uintMax then some []
      else (findAll kmp icase next fuel calls offset).map (p :: ·)

/-- The occurrences from `o` on that one meets going from each to the first one
behind it. -/
inductive Leftmost (occurs : Nat → Prop) (m : Nat) : Nat → List Nat → Prop
  | nil {o : Nat} : FirstFrom occurs o none → Leftmost occurs m o []
  | cons {o p : Nat} {ps : List Nat} : FirstFrom occurs o (some p) →
      Leftmost occurs m (p + m) ps → Leftmost occurs m o (p :: ps)

lemma findAll_spec (hne : pattern ≠ []) {next : Nat → GetNextBlock}
    (hd : ∀ k, Delivers (next k) text n) (hn : n < 2 ^ 32) (icase : Bool)
    {calls : Nat} (hcalls : n < calls + o) (hpos : 0 < calls) :
    ∃ ps, Leftmost (Occurs pattern icase text n) pattern.length o ps ∧
      findAll (kmpInit pattern icase) icase next (n + 1) calls o = some ps := by
  have hlen := length_pos_iff.mpr hne
  induction calls generalizing o with
  | zero => omega
  | succ calls ih =>
    obtain ⟨r, hfirst, hfind⟩ := kmpFind_spec hne (hd calls) hn icase o
    unfold findAll
    rw [hfind]
    cases r with
    | none => exact ⟨[], .nil hfirst, if_pos rfl⟩
    | some p =>
      have hroom := hfirst.2.1.1
      have hstart := hfirst.1
      have hmax : p ≠ uintMax := by
        unfold uintMax
        omega
      obtain ⟨ps, hleft, hrest⟩ := ih (o := p + pattern.length) (by omega) (by omega)
      refine ⟨p :: ps, .cons hfirst hleft, ?_⟩
      dsimp only [answer]
      rw [if_neg hmax, hrest]
      rfl

-- == the result

/-- Exact search: in a text of fewer than `2 ^ 32` bytes, whatever its
blocks, a call finds the first occurrence from its offset on, or none if there
is none, and repeated calls find the leftmost occurrences that do not overlap. -/
theorem kmp_search_exact (pattern : List UInt8) (hne : pattern ≠ []) (icase : Bool)
    (text : Nat → UInt8) (n : Nat) (hn : n < 2 ^ 32) (next : Nat → GetNextBlock)
    (hd : ∀ k, Delivers (next k) text n) (o : Nat) :
    (∃ r, FirstFrom (Occurs pattern icase text n) o r ∧
      kmpFind (kmpInit pattern icase) icase (next 0) (n + 1) o = some (answer pattern.length o r)) ∧
    ∃ ps, Leftmost (Occurs pattern icase text n) pattern.length o ps ∧
      findAll (kmpInit pattern icase) icase next (n + 1) (n + 1) o = some ps :=
  ⟨kmpFind_spec hne (hd 0) hn icase o, findAll_spec hne hd hn icase (by omega) (by omega)⟩

def byteByByte (text : Nat → UInt8) (n : Nat) : GetNextBlock :=
  fun c => (if c < n then 1 else 0, fun i => text (c + i))

lemma delivers_byteByByte (text : Nat → UInt8) (n : Nat) : Delivers (byteByByte text n) text n where
  block := by
    intro c hc
    have hone : (byteByByte text n c).1 = 1 := if_pos hc
    rw [hone]
    exact ⟨Nat.one_pos, hc, fun i _ => rfl⟩
  done := by
    intro c hc
    exact if_neg (by omega)

theorem abab_searched :
    ∃ ps, Leftmost (Occurs [97, 98] true (fun i => if i % 2 = 0 then 65 else 66) 5) 2 0 ps ∧
      findAll (kmpInit [97, 98] true) true
        (fun _ => byteByByte (fun i => if i % 2 = 0 then 65 else 66) 5) 6 6 0
        = some ps :=
  (kmp_search_exact [97, 98] (by decide) true
    (fun i => if i % 2 = 0 then 65 else 66) 5 (by decide) _ (fun _ => delivers_byteByByte _ 5) 0).2

-- == longer texts

/-- A text of `2 ^ 32` bytes in two blocks. -/
def twoHalves : GetNextBlock := fun c =>
  (if c < 2 ^ 31 then 2 ^ 31 - c else if c < 2 ^ 32 then 2 ^ 32 - c else 0, fun _ => 0)

lemma delivers_twoHalves : Delivers twoHalves (fun _ => 0) (2 ^ 32) where
  block := by
    intro c hc
    unfold twoHalves
    split_ifs <;> refine ⟨?_, ?_, fun _ _ => rfl⟩ <;> omega
  done := by
    intro c hc
    unfold twoHalves
    rw [if_neg (by omega), if_neg (by omega)]

lemma scanBlock_zeros (left i : Nat) :
    scanBlock (kmpInit [1] false) false (fun _ => 0) left i 0 = .carried 0 := by
  induction left generalizing i with
  | zero => rfl
  | succ left ih =>
    unfold scanBlock
    have hstays : advance (kmpInit [1] false).pattern
        (kmpInit [1] false).prefixTbl (fold false 0) 0 = 0 := by decide
    have hlen : (kmpInit [1] false).patternLen = 1 := rfl
    rw [hstays, hlen, if_neg (by decide), ih]

lemma kmpLoop_zeros {next : GetNextBlock} {offset fuel c c' len : Nat} (hlen : (next c).1 = len)
    (hne : len ≠ 0) (hzeros : (next c).2 = fun _ => 0) (hc : (c + len) % 2 ^ 32 = c') :
    kmpLoop (kmpInit [1] false) false next offset (fuel + 1) c 0
      = kmpLoop (kmpInit [1] false) false next offset fuel c' 0 := by
  rw [kmpLoop]
  rw [hlen, if_neg hne, hzeros, scanBlock_zeros, hc]

/-- Where the text has `2 ^ 32` bytes, the offset wraps at its end, and the search
for a byte that is not there does not end. -/
theorem search_of_long_text_loops :
    Delivers twoHalves (fun _ => 0) (2 ^ 32) ∧
    (∀ p, ¬Occurs [1] false (fun _ => 0) (2 ^ 32) p) ∧
    ∀ fuel, kmpFind (kmpInit [1] false) false twoHalves fuel 0 = none := by
  refine ⟨delivers_twoHalves, ?_, fun fuel => ?_⟩
  · rintro p ⟨-, hall⟩
    have hbyte : fold false 0 = fold false 1 := hall 0 Nat.one_pos
    exact absurd hbyte (by decide)
  have hboth : ∀ fuel, kmpLoop (kmpInit [1] false) false twoHalves 0 fuel 0 0 = none ∧
      kmpLoop (kmpInit [1] false) false twoHalves 0 fuel (2 ^ 31) 0 = none := by
    intro fuel
    induction fuel with
    | zero => exact ⟨rfl, rfl⟩
    | succ fuel ih =>
      have hfirst : (twoHalves 0).1 = 2 ^ 31 := by decide
      have hsecond : (twoHalves (2 ^ 31)).1 = 2 ^ 31 := by decide
      have hhalf : (0 + 2 ^ 31) % 2 ^ 32 = 2 ^ 31 := by decide
      have hwraps : (2 ^ 31 + 2 ^ 31) % 2 ^ 32 = 0 := by decide
      constructor
      · rw [kmpLoop_zeros hfirst (by decide) rfl hhalf]
        exact ih.2
      · rw [kmpLoop_zeros hsecond (by decide) rfl hwraps]
        exact ih.1
  exact (hboth fuel).1

end BoardStack.Textsearch
