/-
The codes over byte strings of any length (fs/yaffs2/yaffs_ecc.c).

The code of a string has the parities by columns and, as a word each, the
exclusive or of the numbers of the bytes of odd parity and of their complements.
A flipped bit changes the first by a pattern that spells the bit, and the others
by the number of the byte and its complement.
-/
import BoardStack.NandEcc.Correct

namespace BoardStack.Yaffs

open Base Function BitVec
open NandEcc (Block flip lookup pack columnMask)

variable {data : Block} {n p q : Nat}

-- == the code

def columnParityTable : List Nat :=
  [0x00, 0x55, 0x59, 0x0c, 0x65, 0x30, 0x3c, 0x69, 0x69, 0x3c, 0x30, 0x65, 0x0c, 0x59, 0x55, 0x00,
    0x95, 0xc0, 0xcc, 0x99, 0xf0, 0xa5, 0xa9, 0xfc,
    0xfc, 0xa9, 0xa5, 0xf0, 0x99, 0xcc, 0xc0, 0x95,
    0x99, 0xcc, 0xc0, 0x95, 0xfc, 0xa9, 0xa5, 0xf0,
    0xf0, 0xa5, 0xa9, 0xfc, 0x95, 0xc0, 0xcc, 0x99,
    0x0c, 0x59, 0x55, 0x00, 0x69, 0x3c, 0x30, 0x65,
    0x65, 0x30, 0x3c, 0x69, 0x00, 0x55, 0x59, 0x0c,
    0xa5, 0xf0, 0xfc, 0xa9, 0xc0, 0x95, 0x99, 0xcc,
    0xcc, 0x99, 0x95, 0xc0, 0xa9, 0xfc, 0xf0, 0xa5,
    0x30, 0x65, 0x69, 0x3c, 0x55, 0x00, 0x0c, 0x59,
    0x59, 0x0c, 0x00, 0x55, 0x3c, 0x69, 0x65, 0x30,
    0x3c, 0x69, 0x65, 0x30, 0x59, 0x0c, 0x00, 0x55,
    0x55, 0x00, 0x0c, 0x59, 0x30, 0x65, 0x69, 0x3c,
    0xa9, 0xfc, 0xf0, 0xa5, 0xcc, 0x99, 0x95, 0xc0,
    0xc0, 0x95, 0x99, 0xcc, 0xa5, 0xf0, 0xfc, 0xa9,
    0xa9, 0xfc, 0xf0, 0xa5, 0xcc, 0x99, 0x95, 0xc0,
    0xc0, 0x95, 0x99, 0xcc, 0xa5, 0xf0, 0xfc, 0xa9,
    0x3c, 0x69, 0x65, 0x30, 0x59, 0x0c, 0x00, 0x55,
    0x55, 0x00, 0x0c, 0x59, 0x30, 0x65, 0x69, 0x3c,
    0x30, 0x65, 0x69, 0x3c, 0x55, 0x00, 0x0c, 0x59,
    0x59, 0x0c, 0x00, 0x55, 0x3c, 0x69, 0x65, 0x30,
    0xa5, 0xf0, 0xfc, 0xa9, 0xc0, 0x95, 0x99, 0xcc,
    0xcc, 0x99, 0x95, 0xc0, 0xa9, 0xfc, 0xf0, 0xa5,
    0x0c, 0x59, 0x55, 0x00, 0x69, 0x3c, 0x30, 0x65,
    0x65, 0x30, 0x3c, 0x69, 0x00, 0x55, 0x59, 0x0c,
    0x99, 0xcc, 0xc0, 0x95, 0xfc, 0xa9, 0xa5, 0xf0,
    0xf0, 0xa5, 0xa9, 0xfc, 0x95, 0xc0, 0xcc, 0x99,
    0x95, 0xc0, 0xcc, 0x99, 0xf0, 0xa5, 0xa9, 0xfc,
    0xfc, 0xa9, 0xa5, 0xf0, 0x99, 0xcc, 0xc0, 0x95,
    0x00, 0x55, 0x59, 0x0c, 0x65, 0x30, 0x3c, 0x69,
    0x69, 0x3c, 0x30, 0x65, 0x0c, 0x59, 0x55, 0x00
  ]

/-- `column_parity_table[x]`. -/
def columnParity (x : BitVec 8) : BitVec 8 := BitVec.ofNat 8 (lookup columnParityTable x)

structure EccOther where
  colParity : BitVec 8
  lineParity : BitVec 32
  lineParityPrime : BitVec 32
deriving DecidableEq, Repr

/-- The loop of `yaffs_ECCCalculateOther`, with `col_parity` before it is cut. -/
def parities (data : Block) : Nat → EccOther
  | 0 => ⟨0, 0, 0⟩
  | i + 1 =>
    let s := parities data i
    let b := columnParity (data i)
    let col := s.colParity ^^^ b
    if b &&& 0x01 ≠ 0 then
      -- an odd number of bits in the byte
      ⟨col, s.lineParity ^^^ BitVec.ofNat 32 i, s.lineParityPrime ^^^ ~~~BitVec.ofNat 32 i⟩
    else ⟨col, s.lineParity, s.lineParityPrime⟩

/-- `(col_parity >> 2) & 0x3f`. -/
def columns (col : BitVec 8) : BitVec 8 := (col >>> 2) &&& 0x3f

def eccCalculateOther (data : Block) (nBytes : Nat) : EccOther :=
  let s := parities data nBytes
  { s with colParity := columns s.colParity }

/-- What `yaffs_ECCCorrectOther` returns, and what it leaves. -/
structure CorrectedOther where
  ret : Int
  data : Block
  readEcc : EccOther

/-- The number of the bit, from the column parity. -/
def deltaBit (cDelta : BitVec 8) : BitVec 32 :=
  let bit : BitVec 32 := 0
  let bit := if cDelta &&& 0x20 ≠ 0 then bit ||| 0x04 else bit
  let bit := if cDelta &&& 0x08 ≠ 0 then bit ||| 0x02 else bit
  if cDelta &&& 0x02 ≠ 0 then bit ||| 0x01 else bit

/-- `yaffs_ECCCorrectOther`, from the bits in which the codes differ. The bits
of a word are counted by `yaffs_CountBits` and `yaffs_CountBits32`. -/
def correctDeltas (data : Block) (nBytes : Nat) (readEcc testEcc : EccOther)
    (cDelta : BitVec 8) (lDelta lDeltaPrime : BitVec 32) : CorrectedOther :=
  if cDelta.setWidth 32 ||| lDelta ||| lDeltaPrime = 0 then ⟨0, data, readEcc⟩
  else if lDelta = ~~~lDeltaPrime ∧ (cDelta ^^^ cDelta >>> 1) &&& 0x15 = 0x15 then
    if lDelta.toNat ≥ nBytes then ⟨-1, data, readEcc⟩
    else ⟨1, flip data lDelta.toNat (deltaBit cDelta).toNat, readEcc⟩
  else if countLoop 32 lDelta 0 + countLoop 32 lDeltaPrime 0
      + countLoop 8 cDelta 0 = 1 then ⟨1, data, testEcc⟩
  else ⟨-1, data, readEcc⟩

def eccCorrectOther (data : Block) (nBytes : Nat) (readEcc testEcc : EccOther) :
    CorrectedOther :=
  correctDeltas data nBytes readEcc testEcc (readEcc.colParity ^^^ testEcc.colParity)
    (readEcc.lineParity ^^^ testEcc.lineParity)
    (readEcc.lineParityPrime ^^^ testEcc.lineParityPrime)

-- == the table

lemma columnParity_eq : ∀ x : BitVec 8, columnParity x = pack fun k =>
      if k < 2 then k == 0 && parity x else parity (x &&& columnMask k) := by
  decide

lemma columnParity_xor (x y : BitVec 8) :
    columnParity (x ^^^ y) = columnParity x ^^^ columnParity y := by
  rw [columnParity_eq, columnParity_eq x, columnParity_eq y, NandEcc.pack_xor]
  apply NandEcc.pack_congr
  intro k _
  split_ifs
  · rw [parity_xor, Bool.and_xor_distrib_left]
  · exact NandEcc.parity_and_xor x y _

lemma columnParity_odd (x : BitVec 8) : columnParity x &&& 0x01 ≠ 0 ↔ parity x = true := by
  have hlow : ∀ y : BitVec 8, y &&& 0x01 ≠ 0 ↔ y.getLsbD 0 = true := by decide
  rw [hlow, columnParity_eq, NandEcc.getLsbD_pack _ (by decide)]
  simp

lemma columns_xor (x y : BitVec 8) : columns (x ^^^ y) = columns x ^^^ columns y := by
  unfold columns
  rw [ushiftRight_xor_distrib]
  apply eq_of_getLsbD_eq
  intro i _
  simp only [getLsbD_and, getLsbD_xor]
  rw [Bool.and_xor_distrib_right]

-- == the differences

/-- The difference of the codes when bit `q` of byte `p` is flipped. -/
def flipped (p q : Nat) : EccOther :=
  ⟨columnParity (bit 8 q), BitVec.ofNat 32 p, ~~~BitVec.ofNat 32 p⟩

def EccOther.xor (c c' : EccOther) : EccOther :=
  ⟨c.colParity ^^^ c'.colParity, c.lineParity ^^^ c'.lineParity,
    c.lineParityPrime ^^^ c'.lineParityPrime⟩

/-- What byte `i` adds to the code. -/
def contribution (i : Nat) (x : BitVec 8) : EccOther :=
  ⟨columnParity x, if parity x then BitVec.ofNat 32 i else 0,
    if parity x then ~~~BitVec.ofNat 32 i else 0⟩

lemma parities_succ (data : Block) (i : Nat) :
    parities data (i + 1) = (parities data i).xor (contribution i (data i)) := by
  unfold contribution EccOther.xor
  conv_lhs => unfold parities
  cases hodd : parity (data i) with
  | false =>
    rw [if_neg (fun h => Bool.false_ne_true (hodd.symm.trans ((columnParity_odd _).mp h)))]
    simp
  | true =>
    rw [if_pos ((columnParity_odd _).mpr hodd)]
    simp

lemma contribution_flip (i : Nat) (x : BitVec 8) (hq : q < 8) :
    contribution i (x ^^^ bit 8 q) = (contribution i x).xor (flipped i q) := by
  unfold contribution EccOther.xor flipped
  rw [columnParity_xor, parity_xor, parity_bit hq]
  cases parity x <;> simp

lemma EccOther.xor_right_comm (c c' c'' : EccOther) : (c.xor c').xor c'' = (c.xor c'').xor c' := by
  unfold EccOther.xor
  rw [xor_assoc, xor_assoc, xor_assoc,
    BitVec.xor_comm c'.colParity, BitVec.xor_comm c'.lineParity,
    BitVec.xor_comm c'.lineParityPrime, ← xor_assoc, ← xor_assoc, ← xor_assoc]

lemma EccOther.xor_assoc (c c' c'' : EccOther) : (c.xor c').xor c'' = c.xor (c'.xor c'') := by
  unfold EccOther.xor
  rw [BitVec.xor_assoc, BitVec.xor_assoc, BitVec.xor_assoc]

lemma parities_before (hp : n ≤ p) : parities (flip data p q) n = parities data n := by
  induction n with
  | zero => rfl
  | succ n ih =>
    have hother : flip data p q n = data n := update_of_ne (by omega) _ _
    rw [parities_succ, parities_succ, ih (by omega), hother]

lemma parities_flip (hp : p < n) (hq : q < 8) :
    parities (flip data p q) n = (parities data n).xor (flipped p q) := by
  induction n with
  | zero => omega
  | succ n ih =>
    rw [parities_succ, parities_succ]
    by_cases hlt : p < n
    · have hother : flip data p q n = data n := update_of_ne (by omega) _ _
      rw [ih hlt, hother, EccOther.xor_right_comm]
    · obtain rfl : p = n := by omega
      have hself : flip data p q p = data p ^^^ bit 8 q := update_self _ _ _
      rw [parities_before le_rfl, hself, contribution_flip p _ hq, EccOther.xor_assoc]

lemma eccCorrectOther_of_parities {data' : Block} {d : EccOther}
    (dat : Block) (h : parities data' n = (parities data n).xor d) :
    eccCorrectOther dat n (eccCalculateOther data n) (eccCalculateOther data' n)
      = correctDeltas dat n (eccCalculateOther data n)
        (eccCalculateOther data' n) (columns d.colParity) d.lineParity
        d.lineParityPrime := by
  have hcancel : ∀ {w : Nat} (x y : BitVec w), x ^^^ (x ^^^ y) = y := by
    intro w x y
    rw [← xor_assoc, BitVec.xor_self, BitVec.zero_xor]
  unfold eccCorrectOther eccCalculateOther
  rw [h]
  unfold EccOther.xor
  dsimp only
  rw [columns_xor, hcancel, hcancel, hcancel]

-- == one error

lemma columns_bit : ∀ q, q < 8 →
    let c := columns (columnParity (bit 8 q))
    (c ^^^ c >>> 1) &&& 0x15 = 0x15 ∧ (deltaBit c).toNat = q ∧ c.setWidth 32 ≠ 0 := by
  decide

lemma correctDeltas_flipped (dat : Block) (c c' : EccOther) (hn : n < 2 ^ 31)
    (hp : p < n) (hq : q < 8) :
    correctDeltas dat n c c' (columns (columnParity (bit 8 q)))
      (BitVec.ofNat 32 p) (~~~BitVec.ofNat 32 p) = ⟨1, flip dat p q, c⟩ := by
  obtain ⟨hpairs, hbit, hne⟩ := columns_bit q hq
  have hline : (BitVec.ofNat 32 p).toNat = p := by
    rw [toNat_ofNat]
    omega
  unfold correctDeltas
  rw [if_neg, if_pos ⟨(BitVec.not_not).symm, hpairs⟩, hline, if_neg (by omega), hbit]
  intro hzero
  exact hne (or_eq_zero_iff.mp (or_eq_zero_iff.mp hzero).1).1

lemma other_corrects_one (data : Block) (hn : n < 2 ^ 31) (hp : p < n) (hq : q < 8) :
    eccCorrectOther (flip data p q) n (eccCalculateOther data n)
      (eccCalculateOther (flip data p q) n)
      = ⟨1, data, eccCalculateOther data n⟩ := by
  rw [eccCorrectOther_of_parities _ (parities_flip hp hq)]
  unfold flipped
  rw [correctDeltas_flipped _ _ _ hn hp hq, NandEcc.flip_flip]

-- == one bit of the stored code

/-- Flip bit `t` of the code: the columns, the lines, and the complements. -/
def flipOther (c : EccOther) (t : Nat) : EccOther :=
  if t < 8 then { c with colParity := c.colParity ^^^ bit 8 t }
  else if t < 40 then
    { c with lineParity := c.lineParity ^^^ bit 32 (t - 8) }
  else { c with lineParityPrime := c.lineParityPrime ^^^ bit 32 (t - 40) }

lemma correctDeltas_one (dat : Block) (c c' : EccOther) {cDelta : BitVec 8}
    {lDelta lDeltaPrime : BitVec 32} (hpair : lDelta ≠ ~~~lDeltaPrime)
    (hne : ¬cDelta.setWidth 32 ||| lDelta ||| lDeltaPrime = 0)
    (hcount : countLoop 32 lDelta 0 + countLoop 32 lDeltaPrime 0 + countLoop 8 cDelta 0 = 1) :
    correctDeltas dat n c c' cDelta lDelta lDeltaPrime = ⟨1, dat, c'⟩ := by
  unfold correctDeltas
  rw [if_neg hne, if_neg (fun h => hpair h.1), if_pos hcount]

lemma bit_ne_not_zero : ∀ q, q < 32 → bit 32 q ≠ ~~~0#32 := by
  decide

lemma other_corrects_code (dat : Block) (c : EccOther) {t : Nat} (ht : t < 72) :
    eccCorrectOther dat n (flipOther c t) c = ⟨1, dat, c⟩ := by
  have hgone : ∀ {w : Nat} (x y : BitVec w), x ^^^ y ^^^ x = y := by
    intro w x y
    rw [BitVec.xor_comm x, xor_assoc, BitVec.xor_self, xor_zero]
  have hwide : ∀ t, t < 8 → (bit 8 t).setWidth 32 ||| 0#32 ||| 0#32 ≠ 0 := by decide
  unfold eccCorrectOther flipOther
  split_ifs with hfirst hsecond
  all_goals
    rw [hgone, BitVec.xor_self, BitVec.xor_self]
    apply correctDeltas_one
  · decide
  · exact hwide t hfirst
  · rw [countLoop_bit hfirst hfirst, countLoop_zero]
  · exact bit_ne_not_zero _ (by omega)
  · intro hzero
    exact bit_ne_zero (by omega) (or_eq_zero_iff.mp (or_eq_zero_iff.mp hzero).1).2
  · rw [countLoop_bit (by omega) (by omega), countLoop_zero, countLoop_zero]
  · intro heq
    apply bit_ne_not_zero (t - 40) (by omega)
    rw [heq, BitVec.not_not]
  · intro hzero
    exact bit_ne_zero (by omega) (or_eq_zero_iff.mp hzero).2
  · rw [countLoop_bit (by omega) (by omega), countLoop_zero, countLoop_zero]

-- == two errors

lemma columns_two_bits : ∀ q, q < 8 → ∀ q', q' < 8 →
    let c := columns (columnParity (bit 8 q) ^^^ columnParity (bit 8 q'))
    (c ^^^ c >>> 1) &&& 0x15 ≠ 0x15 ∧ countLoop 8 c 0 % 2 = 0 ∧ (c.setWidth 32 = 0 → q = q') := by
  decide

lemma not_xor_not (x y : BitVec 32) : ~~~x ^^^ ~~~y = x ^^^ y := by
  rw [← not_xor_left, ← not_xor_right, BitVec.not_not]

lemma deltas_ne_zero {p' q' : Nat} (hn : n < 2 ^ 31) (hp : p < n) (hq : q < 8)
    (hp' : p' < n) (hq' : q' < 8) (hne : (p, q) ≠ (p', q')) :
    ¬(columns (columnParity (bit 8 q) ^^^ columnParity (bit 8 q'))).setWidth 32
      ||| (BitVec.ofNat 32 p ^^^ BitVec.ofNat 32 p')
      ||| (BitVec.ofNat 32 p ^^^ BitVec.ofNat 32 p') = 0 := by
  intro hzero
  obtain ⟨hleft, -⟩ := or_eq_zero_iff.mp hzero
  obtain ⟨hcol, hline⟩ := or_eq_zero_iff.mp hleft
  have hbit := (columns_two_bits q hq q' hq').2.2 hcol
  have hbyte := congrArg BitVec.toNat (BitVec.xor_eq_zero_iff.mp hline)
  rw [toNat_ofNat, toNat_ofNat] at hbyte
  exact hne (Prod.ext (by dsimp only; omega) hbit)

lemma other_detects_two (data : Block) {p' q' : Nat} (hn : n < 2 ^ 31)
    (hp : p < n) (hq : q < 8) (hp' : p' < n) (hq' : q' < 8) (hne : (p, q) ≠ (p', q')) :
    eccCorrectOther (flip (flip data p q) p' q') n (eccCalculateOther data n)
      (eccCalculateOther (flip (flip data p q) p' q') n)
      = ⟨-1, flip (flip data p q) p' q', eccCalculateOther data n⟩ := by
  have hboth : parities (flip (flip data p q) p' q') n
      = (parities data n).xor ((flipped p q).xor (flipped p' q')) := by
    rw [parities_flip hp' hq', parities_flip hp hq, EccOther.xor_assoc]
  obtain ⟨hpairs, heven, -⟩ := columns_two_bits q hq q' hq'
  rw [eccCorrectOther_of_parities _ hboth]
  unfold EccOther.xor flipped
  dsimp only
  rw [not_xor_not]
  unfold correctDeltas
  rw [if_neg (deltas_ne_zero hn hp hq hp' hq' hne), if_neg (fun h => hpairs h.2), if_neg]
  -- the two lines are the same, and the columns are even
  omega

-- == the result

/-- Strings of any length: a flipped bit of the data is flipped back, for a
flipped bit of the stored code the code is replaced, and two flipped bits of
the data are reported and left. -/
theorem eccOther_corrects_one_detects_two (data : Block) (nBytes : Nat) (hn : nBytes < 2 ^ 31) :
    (∀ p q, p < nBytes → q < 8 →
      eccCorrectOther (flip data p q) nBytes (eccCalculateOther data nBytes)
        (eccCalculateOther (flip data p q) nBytes) = ⟨1, data, eccCalculateOther data nBytes⟩) ∧
    (∀ t, t < 72 → eccCorrectOther data nBytes (flipOther (eccCalculateOther data nBytes) t)
        (eccCalculateOther data nBytes) = ⟨1, data, eccCalculateOther data nBytes⟩) ∧
    (∀ p q p' q', p < nBytes → q < 8 → p' < nBytes → q' < 8 →
      (p, q) ≠ (p', q') → eccCorrectOther (flip (flip data p q) p' q') nBytes
        (eccCalculateOther data nBytes) (eccCalculateOther (flip (flip data p q) p' q') nBytes)
        = ⟨-1, flip (flip data p q) p' q', eccCalculateOther data nBytes⟩) := by
  refine ⟨?_, ?_, ?_⟩
  · intro p q hp hq
    exact other_corrects_one data hn hp hq
  · intro t ht
    exact other_corrects_code data _ ht
  · intro p q p' q' hp hq hp' hq' hne
    exact other_detects_two data hn hp hq hp' hq' hne

theorem thirtyBytes_corrected :
    eccCorrectOther (flip (fun _ => 0) 29 4) 30 (eccCalculateOther (fun _ => 0) 30)
      (eccCalculateOther (flip (fun _ => 0) 29 4) 30)
      = ⟨1, fun _ => 0, eccCalculateOther (fun _ => 0) 30⟩ :=
  (eccOther_corrects_one_detects_two (fun _ => 0) 30 (by decide)).1 29 4 (by decide) (by decide)

end BoardStack.Yaffs
