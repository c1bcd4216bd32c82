/-
What is corrected.

An error in a bit of the data changes in each pair of bits of the code the one
that the position of the error selects, so the difference of two codes spells
the position; two errors change both bits of a pair or none. The decoder puts
the number of the byte into eight bits, so for blocks of 512 bytes it corrects
the right byte in the first half of the block only.

The decoder of the boot loader works on blocks of 256 bytes. Where the kernel looks
the position of an error up in a table, the boot loader gathers every other bit of the
difference of the codes in a loop, and it counts bits in a loop. The differences
themselves are those of the kernel's code for blocks of 256 bytes.
-/
import BoardStack.NandEcc.Code

namespace BoardStack.NandEcc

open Base Function BitVec

variable {cfg : Config} {size : EccSize} {buf : Block} {n p q j : Nat}

-- == syndromes

/-- The bits of a pair that a number selects. -/
def errorBits (x j : Nat) : Nat → Bool := fun k => x.testBit (j + k / 2) == (k % 2 == 1)

def errorColumn (size : EccSize) (p q : Nat) : Nat → Bool :=
  fun k => if k < 2 then size == .s512 && errorBits p 8 k
    else errorBits q 0 (k - 2)

lemma row_flip (hp : p < n) (j : Nat) (v : Bool) :
    row (flip buf p q) n j v = row buf n j v ^^^ (if p.testBit j == v then bit 8 q else 0#8) :=
  xorSel_update hp (bit 8 q)

lemma total_flip (hp : p < n) : total (flip buf p q) n = total buf n ^^^ bit 8 q :=
  xorSel_update hp (bit 8 q)

lemma rowBits_flip (hp : p < n) (hq : q < 8) (j k : Nat) :
    rowBits (flip buf p q) n j k = (rowBits buf n j k ^^ errorBits p j k) := by
  unfold rowBits errorBits
  rw [row_flip hp, parity_xor]
  cases p.testBit (j + k / 2) == (k % 2 == 1)
  · rw [if_neg Bool.false_ne_true, parity_zero, Bool.xor_false, Bool.xor_false]
  · rw [if_pos rfl, parity_bit hq, Bool.not_xor]

lemma parity_bit_and (hq : q < 8) (mask : BitVec 8) :
    parity (bit 8 q &&& mask) = mask.getLsbD q := by
  have hand : bit 8 q &&& mask = if mask.getLsbD q then bit 8 q else 0#8 := by
    apply eq_of_getLsbD_eq
    intro i hi
    rw [getLsbD_and, getLsbD_bit]
    by_cases hiq : i = q
    · subst hiq
      cases mask.getLsbD i <;> simp [getLsbD_bit]
    · cases mask.getLsbD q <;> simp [getLsbD_bit, hiq]
  rw [hand]
  cases mask.getLsbD q
  · exact parity_zero
  · exact parity_bit hq

lemma columnMask_bit : ∀ k, k < 8 → ¬k < 2 → ∀ q, q < 8 →
    (columnMask k).getLsbD q = errorBits q 0 (k - 2) := by
  decide

lemma columnBits_flip (hp : p < size.bytes) (hq : q < 8) {k : Nat} (hk : k < 8) :
    columnBits size (flip buf p q) k = (columnBits size buf k ^^ errorColumn size p q k) := by
  unfold columnBits errorColumn
  by_cases htwo : k < 2
  · rw [if_pos htwo, if_pos htwo, if_pos htwo, rowBits_flip hp hq]
    cases size with
    | s256 => rfl
    | s512 =>
      have hsize : (EccSize.s512 == .s256) = false := rfl
      rw [hsize, Bool.false_or, Bool.false_or]
      rfl
  · rw [if_neg htwo, if_neg htwo, if_neg htwo, total_flip hp, parity_and_xor,
      parity_bit_and hq, columnMask_bit k hk htwo q hq, Bool.not_xor]

lemma pack_syndrome {f g e : Nat → Bool} (h : ∀ k, k < 8 → g k = (f k ^^ e k)) :
    pack f ^^^ pack g = pack e := by
  rw [pack_xor]
  apply pack_congr
  intro k hk
  rw [h k hk, ← Bool.xor_assoc, Bool.xor_self, Bool.false_xor]

lemma low_syndrome (hp : p < n) (hq : q < 8) (j : Nat) :
    pack (rowBits buf n j) ^^^ pack (rowBits (flip buf p q) n j) = pack (errorBits p j) :=
  pack_syndrome fun k _ => rowBits_flip hp hq j k

lemma column_syndrome (hp : p < size.bytes) (hq : q < 8) :
    pack (columnBits size buf) ^^^ pack (columnBits size (flip buf p q))
      = pack (errorColumn size p q) :=
  pack_syndrome fun _ => columnBits_flip hp hq

lemma nandCorrectData_ecc (x y : Block) :
    nandCorrectData cfg size buf (ecc cfg size x) (ecc cfg size y) = correctFaults size buf
        (pack (rowBits x size.bytes 0) ^^^ pack (rowBits y size.bytes 0))
        (pack (rowBits x size.bytes 4) ^^^ pack (rowBits y size.bytes 4))
        (pack (columnBits size x) ^^^ pack (columnBits size y)) := by
  unfold nandCorrectData ecc
  cases cfg.smc <;> rfl

-- == one error

/-- A byte that has one bit of each pair. -/
def spell (t₀ t₁ t₂ t₃ : Bool) : BitVec 8 :=
  pack fun k => [t₀, t₁, t₂, t₃].getD (k / 2) false == (k % 2 == 1)

lemma spell_facts : ∀ t₀ t₁ t₂ t₃ : Bool, onePerPair 0x55 (spell t₀ t₁ t₂ t₃) = true ∧
    onePerPair 0x54 (spell t₀ t₁ t₂ t₃ &&& 0xfc) = true ∧
    spell t₀ t₁ t₂ t₃ ≠ 0 ∧
    lookup addressbitsTable (spell t₀ t₁ t₂ t₃)
      = t₀.toNat + 2 * t₁.toNat + 4 * t₂.toNat + 8 * t₃.toNat ∧
    lookup addressbitsTable (spell t₀ t₁ t₂ t₃ >>> 2) = t₁.toNat + 2 * t₂.toNat + 4 * t₃.toNat ∧
    lookup addressbitsTable ((spell t₀ t₁ t₂ t₃ &&& 0xfc) >>> 2)
      = t₁.toNat + 2 * t₂.toNat + 4 * t₃.toNat ∧
    lookup addressbitsTable (spell t₀ t₁ t₂ t₃ &&& 0x3) = t₀.toNat := by
  decide

lemma errorBits_spell (x j : Nat) :
    pack (errorBits x j) = spell (x.testBit j) (x.testBit (j + 1))
      (x.testBit (j + 2)) (x.testBit (j + 3)) := rfl

lemma errorColumn_spell (p q : Nat) :
    pack (errorColumn .s512 p q)
      = spell (p.testBit 8) (q.testBit 0) (q.testBit 1) (q.testBit 2) := rfl

lemma spell_masked : ∀ t₀ t₁ t₂ t₃ : Bool, (pack fun k => if k < 2 then false else
      [t₁, t₂, t₃].getD ((k - 2) / 2) false == ((k - 2) % 2 == 1))
      = spell t₀ t₁ t₂ t₃ &&& 0xfc := by
  decide

lemma errorColumn_masked (p q : Nat) :
    pack (errorColumn .s256 p q) = spell false (q.testBit 0) (q.testBit 1) (q.testBit 2) &&& 0xfc :=
  spell_masked false (q.testBit 0) (q.testBit 1) (q.testBit 2)

lemma sum_bits (x j : Nat) :
    (x.testBit j).toNat + 2 * (x.testBit (j + 1)).toNat
      + 4 * (x.testBit (j + 2)).toNat + 8 * (x.testBit (j + 3)).toNat
      = x / 2 ^ j % 16 := by
  simp only [Nat.toNat_testBit, pow_add, ← Nat.div_div_eq_div_mul]
  omega

lemma sum_three (hq : q < 8) :
    (q.testBit 0).toNat + 2 * (q.testBit 1).toNat + 4 * (q.testBit 2).toNat = q := by
  simp only [Nat.toNat_testBit]
  omega

lemma correctFaults_spell (size : EccSize) (buf : Block) (p : Nat) (hq : q < 8) :
    correctFaults size buf (pack (errorBits p 0)) (pack (errorBits p 4))
      (pack (errorColumn size p q)) = ⟨1, flip buf (p % 256) q⟩ := by
  obtain ⟨hlow, -, hne, hlowAddr, -⟩ := spell_facts (p.testBit 0)
    (p.testBit 1) (p.testBit 2) (p.testBit 3)
  obtain ⟨hhigh, -, -, hhighAddr, -⟩ := spell_facts (p.testBit 4)
    (p.testBit 5) (p.testBit 6) (p.testBit 7)
  have hsumLow := sum_bits p 0
  have hsumHigh := sum_bits p 4
  have hsumBit := sum_three hq
  have hsome : ∀ x y, ¬pack (errorBits p 0) ||| x ||| y = 0 := by
    intro x y hzero
    exact hne (or_eq_zero_iff.mp (or_eq_zero_iff.mp hzero).1).1
  unfold correctFaults
  rw [if_neg (hsome _ _), errorBits_spell, errorBits_spell]
  cases size with
  | s256 =>
    obtain ⟨-, hcol, -, -, -, hbit, -⟩ := spell_facts false (q.testBit 0)
      (q.testBit 1) (q.testBit 2)
    have hmult : EccSize.s256.mult = 1 := rfl
    rw [errorColumn_masked, if_pos ⟨hlow, hhigh, .inl ⟨rfl, hcol⟩⟩]
    dsimp only
    rw [hlowAddr, hhighAddr, hbit, if_pos hmult, hsumLow, hsumHigh, hsumBit, Nat.shiftLeft_eq]
    congr 2 <;> omega
  | s512 =>
    obtain ⟨hcol, -, -, -, hbit, -, htop⟩ := spell_facts (p.testBit 8)
      (q.testBit 0) (q.testBit 1) (q.testBit 2)
    have hmult : EccSize.s512.mult ≠ 1 := by decide
    rw [errorColumn_spell, if_pos ⟨hlow, hhigh, .inr ⟨rfl, hcol⟩⟩]
    dsimp only
    rw [hlowAddr, hhighAddr, hbit, htop, if_neg hmult, hsumLow, hsumHigh,
      hsumBit, Nat.shiftLeft_eq, Nat.shiftLeft_eq]
    congr 2 <;> omega

/-- One error: the bit is flipped back, in the byte whose number has the
same lower eight bits. -/
theorem corrects_one (cfg : Config) (buf : Block) (hp : p < size.bytes) (hq : q < 8) :
    nandCorrectData cfg size (flip buf p q) (ecc cfg size buf) (ecc cfg size (flip buf p q))
      = ⟨1, flip (flip buf p q) (p % 256) q⟩ := by
  rw [nandCorrectData_ecc, low_syndrome hp hq, low_syndrome hp hq,
    column_syndrome hp hq, correctFaults_spell _ _ _ hq]

lemma flip_flip (buf : Block) (p q : Nat) : flip (flip buf p q) p q = buf := by
  funext i
  unfold flip
  by_cases hi : i = p
  · subst hi
    rw [update_self, update_self, xor_assoc, BitVec.xor_self, xor_zero]
  · rw [update_of_ne hi, update_of_ne hi]

/-- Flipping another byte does not undo a flip. -/
lemma flip_flip_ne {p' : Nat} (buf : Block) (hq : q < 8) (hp : p' ≠ p) :
    flip (flip buf p q) p' q ≠ buf := by
  intro h
  have hbyte := congrFun h p
  unfold flip at hbyte
  rw [update_of_ne hp.symm, update_self] at hbyte
  exact bit_ne_zero hq ((BitVec.xor_right_inj (buf p)).mp (hbyte.trans xor_zero.symm))

-- == one bit of the stored code

def flipCode (c : Code) (t : Nat) : Code :=
  if t < 8 then { c with code0 := c.code0 ^^^ bit 8 t }
  else if t < 16 then { c with code1 := c.code1 ^^^ bit 8 (t - 8) }
  else { c with code2 := c.code2 ^^^ bit 8 (t - 16) }

lemma correctFaults_one (size : EccSize) (buf : Block) (hq : q < 8) :
    correctFaults size buf (bit 8 q) 0#8 0#8 = ⟨1, buf⟩ ∧
    correctFaults size buf 0#8 (bit 8 q) 0#8 = ⟨1, buf⟩ ∧
    correctFaults size buf 0#8 0#8 (bit 8 q) = ⟨1, buf⟩ := by
  have hfacts : ∀ q, q < 8 → onePerPair 0x55#8 0#8 = false ∧
      bit 8 q ≠ 0#8 ∧ lookup bitsperbyteTable (bit 8 q) = 1 ∧
      lookup bitsperbyteTable 0#8 = 0 := by decide
  obtain ⟨hzero, hne, hone, hnone⟩ := hfacts q hq
  unfold correctFaults
  simp [hzero, hne, hone, hnone]

/-- One error in the stored code: the data stays as it is. -/
theorem corrects_code (cfg : Config) (buf : Block) (c : Code) {t : Nat} (ht : t < 24) :
    nandCorrectData cfg size buf (flipCode c t) c = ⟨1, buf⟩ := by
  have hself : ∀ x y : BitVec 8, x ^^^ y ^^^ x = y := by
    intro x y
    rw [BitVec.xor_comm x y, xor_assoc, BitVec.xor_self, xor_zero]
  unfold nandCorrectData flipCode
  split_ifs with hfirst
  all_goals simp only [hself, BitVec.xor_self]
  · exact (correctFaults_one size buf hfirst).1
  · exact (correctFaults_one size buf hfirst).2.1
  · exact (correctFaults_one size buf (by omega)).2.1
  · exact (correctFaults_one size buf (by omega)).1
  all_goals exact (correctFaults_one size buf (by omega)).2.2

-- == two errors

/-- A byte that has both bits of a pair or none. -/
def doubled (t₀ t₁ t₂ t₃ : Bool) : BitVec 8 := pack fun k => [t₀, t₁, t₂, t₃].getD (k / 2) false

lemma doubled_facts : ∀ t₀ t₁ t₂ t₃ : Bool, onePerPair 0x55 (doubled t₀ t₁ t₂ t₃) = false ∧
    lookup bitsperbyteTable (doubled t₀ t₁ t₂ t₃) % 2 = 0 ∧
    (doubled t₀ t₁ t₂ t₃ = 0#8 → t₀ = false ∧ t₁ = false ∧ t₂ = false ∧ t₃ = false) := by
  decide

lemma eq_of_xor_eq_false : ∀ {t u : Bool}, (t ^^ u) = false → t = u := by
  decide

lemma spell_xor_spell : ∀ t₀ t₁ t₂ t₃ u0 u1 u2 u3 : Bool, spell t₀ t₁ t₂ t₃ ^^^ spell u0 u1 u2 u3
      = doubled (t₀ ^^ u0) (t₁ ^^ u1) (t₂ ^^ u2) (t₃ ^^ u3) := by
  decide

lemma masked_xor_masked : ∀ t₁ t₂ t₃ u1 u2 u3 : Bool,
    (spell false t₁ t₂ t₃ &&& 0xfc) ^^^ (spell false u1 u2 u3 &&& 0xfc)
      = doubled false (t₁ ^^ u1) (t₂ ^^ u2) (t₃ ^^ u3) := by
  decide

lemma errorBits_xor_errorBits (x y j : Nat) :
    pack (errorBits x j) ^^^ pack (errorBits y j) = doubled (x.testBit j ^^ y.testBit j)
        (x.testBit (j + 1) ^^ y.testBit (j + 1))
        (x.testBit (j + 2) ^^ y.testBit (j + 2))
        (x.testBit (j + 3) ^^ y.testBit (j + 3)) := by
  rw [errorBits_spell, errorBits_spell, spell_xor_spell]

lemma errorColumn_xor_errorColumn (size : EccSize) (p q p' q' : Nat) :
    pack (errorColumn size p q) ^^^ pack (errorColumn size p' q')
      = doubled (size == .s512 && (p.testBit 8 ^^ p'.testBit 8))
        (q.testBit 0 ^^ q'.testBit 0) (q.testBit 1 ^^ q'.testBit 1)
        (q.testBit 2 ^^ q'.testBit 2) := by
  cases size with
  | s256 =>
    rw [errorColumn_masked, errorColumn_masked, masked_xor_masked]
    rfl
  | s512 =>
    rw [errorColumn_spell, errorColumn_spell, spell_xor_spell]
    rfl

lemma correctFaults_doubled (size : EccSize) (buf : Block)
    {b0 b1 b2 : BitVec 8} (hpair : onePerPair 0x55 b0 = false) (hne : ¬b0 ||| b1 ||| b2 = 0)
    (heven : (lookup bitsperbyteTable b0 + lookup bitsperbyteTable b1
      + lookup bitsperbyteTable b2) % 2 = 0) :
    correctFaults size buf b0 b1 b2 = ⟨-1, buf⟩ := by
  unfold correctFaults
  rw [if_neg hne, if_neg, if_neg]
  · intro hone
    omega
  · intro hall
    rw [hpair] at hall
    exact Bool.false_ne_true hall.1

lemma bits_eq_of_doubled {x y : Nat} (h : pack (errorBits x j) ^^^ pack (errorBits y j) = 0#8) :
    x / 2 ^ j % 16 = y / 2 ^ j % 16 := by
  rw [errorBits_xor_errorBits] at h
  obtain ⟨h0, h1, h2, h3⟩ := (doubled_facts _ _ _ _).2.2 h
  rw [← sum_bits x j, ← sum_bits y j, eq_of_xor_eq_false h0,
    eq_of_xor_eq_false h1, eq_of_xor_eq_false h2, eq_of_xor_eq_false h3]

variable {p' q' : Nat}

lemma syndromes_ne_zero (hp : p < size.bytes) (hq : q < 8)
    (hp' : p' < size.bytes) (hq' : q' < 8) (hne : (p, q) ≠ (p', q')) :
    ¬(pack (errorBits p 0) ^^^ pack (errorBits p' 0))
      ||| (pack (errorBits p 4) ^^^ pack (errorBits p' 4))
      ||| (pack (errorColumn size p q) ^^^ pack (errorColumn size p' q'))
      = 0 := by
  intro hzero
  obtain ⟨hrows, hcol⟩ := or_eq_zero_iff.mp hzero
  obtain ⟨hlow, hhigh⟩ := or_eq_zero_iff.mp hrows
  have hlowBits := bits_eq_of_doubled hlow
  have hhighBits := bits_eq_of_doubled hhigh
  rw [errorColumn_xor_errorColumn] at hcol
  obtain ⟨htop, h0, h1, h2⟩ := (doubled_facts _ _ _ _).2.2 hcol
  have hbit : q = q' := by
    rw [← sum_three hq, ← sum_three hq', eq_of_xor_eq_false h0,
      eq_of_xor_eq_false h1, eq_of_xor_eq_false h2]
  have hbyte : p = p' := by
    cases size with
    | s256 =>
      have hbytes : EccSize.s256.bytes = 256 := rfl
      omega
    | s512 =>
      have hbytes : EccSize.s512.bytes = 512 := rfl
      have htopBit : p.testBit 8 = p'.testBit 8 := eq_of_xor_eq_false htop
      have htopNat := congrArg Bool.toNat htopBit
      rw [Nat.toNat_testBit, Nat.toNat_testBit] at htopNat
      omega
  exact hne (Prod.ext hbyte hbit)

lemma xor_via (x y z : BitVec 8) : x ^^^ z = (x ^^^ y) ^^^ (y ^^^ z) := by
  rw [xor_assoc, ← BitVec.xor_assoc y, BitVec.xor_self, BitVec.zero_xor]

lemma low_syndrome_two (hp : p < n) (hq : q < 8) (hp' : p' < n) (hq' : q' < 8) (j : Nat) :
    pack (rowBits buf n j) ^^^ pack (rowBits (flip (flip buf p q) p' q') n j)
      = pack (errorBits p j) ^^^ pack (errorBits p' j) := by
  rw [xor_via _ (pack (rowBits (flip buf p q) n j)), low_syndrome hp hq, low_syndrome hp' hq']

lemma column_syndrome_two (hp : p < size.bytes) (hq : q < 8)
    (hp' : p' < size.bytes) (hq' : q' < 8) :
    pack (columnBits size buf) ^^^ pack (columnBits size (flip (flip buf p q) p' q'))
      = pack (errorColumn size p q) ^^^ pack (errorColumn size p' q') := by
  rw [xor_via _ (pack (columnBits size (flip buf p q))), column_syndrome hp hq,
    column_syndrome hp' hq']

/-- Two errors are reported, and the data stays as it is. -/
theorem detects_two (cfg : Config) (buf : Block) (hp : p < size.bytes) (hq : q < 8)
    (hp' : p' < size.bytes) (hq' : q' < 8) (hne : (p, q) ≠ (p', q')) :
    nandCorrectData cfg size (flip (flip buf p q) p' q') (ecc cfg size buf)
      (ecc cfg size (flip (flip buf p q) p' q'))
      = ⟨-1, flip (flip buf p q) p' q'⟩ := by
  rw [nandCorrectData_ecc, low_syndrome_two hp hq hp' hq',
    low_syndrome_two hp hq hp' hq', column_syndrome_two hp hq hp' hq']
  apply correctFaults_doubled
  · rw [errorBits_xor_errorBits]
    exact (doubled_facts _ _ _ _).1
  · exact syndromes_ne_zero hp hq hp' hq' hne
  · rw [errorBits_xor_errorBits, errorBits_xor_errorBits,
      errorColumn_xor_errorColumn, Nat.add_mod, Nat.add_mod (lookup _ _),
      (doubled_facts _ _ _ _).2.1, (doubled_facts _ _ _ _).2.1, (doubled_facts _ _ _ _).2.1]

-- == what is restored

/-- One error is corrected and two are detected: one flipped bit of the
data is flipped back if and only if the blocks are of 256 bytes or the bit is in
the first 256; one flipped bit of the stored code changes nothing; two flipped
bits of the data are reported and left. -/
theorem corrects_one_iff_detects_two (cfg : Config) (size : EccSize) (buf : Block) :
    (∀ p q, p < size.bytes → q < 8 →
      (nandCorrectData cfg size (flip buf p q) (nandCalculateEcc cfg size buf)
        (nandCalculateEcc cfg size (flip buf p q)) = ⟨1, buf⟩ ↔ size = .s256 ∨ p < 256)) ∧
    (∀ t, t < 24 → nandCorrectData cfg size buf (flipCode (nandCalculateEcc cfg size buf) t)
        (nandCalculateEcc cfg size buf) = ⟨1, buf⟩) ∧
    (∀ p q p' q', p < size.bytes → q < 8 → p' < size.bytes → q' < 8 →
      (p, q) ≠ (p', q') → nandCorrectData cfg size (flip (flip buf p q) p' q')
        (nandCalculateEcc cfg size buf) (nandCalculateEcc cfg size (flip (flip buf p q) p' q'))
        = ⟨-1, flip (flip buf p q) p' q'⟩) := by
  refine ⟨?_, ?_, ?_⟩
  · intro p q hp hq
    rw [nandCalculateEcc_eq, nandCalculateEcc_eq, corrects_one cfg buf hp hq]
    constructor
    · -- the byte that is changed is the one with the low eight bits of the number
      intro h
      by_cases hlt : p < 256
      · exact .inr hlt
      · have hne : p % 256 ≠ p := by omega
        exact absurd (congrArg Corrected.buf h) (flip_flip_ne buf hq hne)
    · intro hsmall
      have hlow : p % 256 = p := by
        apply Nat.mod_eq_of_lt
        rcases hsmall with hsize | hlt
        · subst hsize
          exact hp
        · exact hlt
      rw [hlow, flip_flip]
  · intro t ht
    exact corrects_code cfg buf _ ht
  · intro p q p' q' hp hq hp' hq' hne
    rw [nandCalculateEcc_eq, nandCalculateEcc_eq]
    exact detects_two cfg buf hp hq hp' hq' hne

theorem zeroBlock_corrected :
    nandCorrectData ⟨false, false⟩ .s512 (flip (fun _ => 0) 3 1)
      (nandCalculateEcc ⟨false, false⟩ .s512 fun _ => 0)
      (nandCalculateEcc ⟨false, false⟩ .s512 (flip (fun _ => 0) 3 1))
      = ⟨1, fun _ => 0⟩ :=
  ((corrects_one_iff_detects_two ⟨false, false⟩ .s512 fun _ => 0).1 3 1
    (by decide) (by decide)).mpr (.inr (by decide))

/-- An error in byte 256 of 512 is corrected in byte 0. -/
theorem error_behind_256_stays :
    ∃ corrected, nandCorrectData ⟨false, false⟩ .s512 (flip (fun _ => 0) 256 0)
        (nandCalculateEcc ⟨false, false⟩ .s512 fun _ => 0)
        (nandCalculateEcc ⟨false, false⟩ .s512 (flip (fun _ => 0) 256 0))
        = ⟨1, corrected⟩ ∧
      corrected 256 = 1 ∧ corrected 0 = 1 := by
  refine ⟨flip (flip (fun _ => 0) 256 0) 0 0, ?_, by decide, by decide⟩
  have hp : 256 < EccSize.s512.bytes := by decide
  have hq : 0 < 8 := by decide
  rw [nandCalculateEcc_eq, nandCalculateEcc_eq, corrects_one _ _ hp hq]

-- == the boot loader

/-- One turn of the loops that gather every other bit: `add` or `bit`, `c`, and
`a` or `b`. -/
def gatherTurn (d : BitVec 8) (s : BitVec 8 × BitVec 8 × BitVec 8) :
    BitVec 8 × BitVec 8 × BitVec 8 :=
  (if d &&& s.2.1 ≠ 0 then s.1 ||| s.2.2 else s.1, s.2.1 >>> 2, s.2.2 >>> 1)

/-- `c = 0x80; for (i = 0; i < turns; i++)`. -/
def gather (d : BitVec 8) (turns : Nat) (add a : BitVec 8) : BitVec 8 × BitVec 8 × BitVec 8 :=
  (List.range turns).foldl (fun s _ => gatherTurn d s) (add, 0x80, a)

/-- What `nand_correct_data` returns, and what it leaves. -/
structure BootCorrected where
  ret : Int
  dat : Block
  readEcc : Code

/-- `nand_correct_data`, from the bits in which the codes differ. The bits of a
byte are counted by `while (d)` loops of at most eight turns. -/
def bootCorrectFaults (dat : Block) (readEcc calcEcc : Code) (d1 d2 d3 : BitVec 8) :
    BootCorrected :=
  if d1 ||| d2 ||| d3 = 0 then ⟨0, dat, readEcc⟩
  else if onePerPair 0x55 d1 ∧ onePerPair 0x55 d2 ∧ onePerPair 0x54 d3 then
    let high := gather d1 4 0 0x80
    let low := gather d2 4 high.1 high.2.2
    let column := gather d3 3 0 0x04
    ⟨1, flip dat low.1.toNat column.1.toNat, readEcc⟩
  else
    let i := countLoop 8 d1 0
    let i := countLoop 8 d2 i
    let i := countLoop 8 d3 i
    if i = 1 then ⟨2, dat, calcEcc⟩ else ⟨-1, dat, readEcc⟩

/-- `nand_correct_data` of the boot loader. -/
def bootCorrectData (dat : Block) (readEcc calcEcc : Code) : BootCorrected :=
  bootCorrectFaults dat readEcc calcEcc (calcEcc.code0 ^^^ readEcc.code0)
    (calcEcc.code1 ^^^ readEcc.code1) (calcEcc.code2 ^^^ readEcc.code2)

-- == the loops

lemma gather_high : ∀ t0 t1 t2 t3 : Bool, gather (spell t0 t1 t2 t3) 4 0 0x80
      = (BitVec.ofNat 8 (16 * (t0.toNat + 2 * t1.toNat + 4 * t2.toNat
        + 8 * t3.toNat)), 0, 0x08) := by
  decide

lemma gather_low : ∀ t0 t1 t2 t3 u0 u1 u2 u3 : Bool,
    (gather (spell t0 t1 t2 t3) 4 (BitVec.ofNat 8 (16 * (u0.toNat + 2 * u1.toNat
        + 4 * u2.toNat + 8 * u3.toNat))) 0x08).1.toNat
      = t0.toNat + 2 * t1.toNat + 4 * t2.toNat + 8 * t3.toNat
        + 16 * (u0.toNat + 2 * u1.toNat + 4 * u2.toNat + 8 * u3.toNat) := by
  decide

lemma gather_column : ∀ t1 t2 t3 : Bool, (gather (spell false t1 t2 t3 &&& 0xfc) 3 0 0x04).1.toNat
      = t1.toNat + 2 * t2.toNat + 4 * t3.toNat := by
  decide

lemma countLoop_doubled : ∀ t0 t1 t2 t3 : Bool, countLoop 8 (doubled t0 t1 t2 t3) 0 % 2 = 0 := by
  decide

-- == one error

lemma bootCorrectFaults_spell (dat : Block) (c c' : Code) (hp : p < 256) (hq : q < 8) :
    bootCorrectFaults dat c c' (pack (errorBits p 4)) (pack (errorBits p 0))
      (pack (errorColumn .s256 p q)) = ⟨1, flip dat p q, c⟩ := by
  obtain ⟨hhigh, -, hne, -⟩ := spell_facts (p.testBit 4) (p.testBit 5) (p.testBit 6) (p.testBit 7)
  obtain ⟨hlow, -⟩ := spell_facts (p.testBit 0) (p.testBit 1) (p.testBit 2) (p.testBit 3)
  obtain ⟨-, hcol, -⟩ := spell_facts false (q.testBit 0) (q.testBit 1) (q.testBit 2)
  have hsome : ∀ x y, ¬pack (errorBits p 4) ||| x ||| y = 0 := by
    intro x y hzero
    exact hne (or_eq_zero_iff.mp (or_eq_zero_iff.mp hzero).1).1
  have hbyte : p / 2 ^ 0 % 16 + 16 * (p / 2 ^ 4 % 16) = p := by omega
  unfold bootCorrectFaults
  rw [if_neg (hsome _ _), errorBits_spell, errorBits_spell, errorColumn_masked,
    if_pos ⟨hhigh, hlow, hcol⟩]
  dsimp only
  rw [gather_high, gather_low, gather_column, sum_three hq, sum_bits p 0, sum_bits p 4, hbyte]

lemma bootCorrectData_ecc (dat x y : Block) :
    bootCorrectData dat (bootCalculateEcc x) (bootCalculateEcc y)
      = bootCorrectFaults dat (bootCalculateEcc x) (bootCalculateEcc y)
        (pack (rowBits x 256 4) ^^^ pack (rowBits y 256 4))
        (pack (rowBits x 256 0) ^^^ pack (rowBits y 256 0))
        (pack (columnBits .s256 x) ^^^ pack (columnBits .s256 y)) := by
  unfold bootCorrectData
  rw [bootCalculateEcc_eq x false, bootCalculateEcc_eq y false]
  unfold ecc
  dsimp only
  rw [BitVec.xor_comm (pack (columnBits .s256 y)), if_neg Bool.false_ne_true,
    if_neg Bool.false_ne_true, if_neg Bool.false_ne_true,
    if_neg Bool.false_ne_true, BitVec.xor_comm (pack (rowBits y _ 4)),
    BitVec.xor_comm (pack (rowBits y _ 0))]
  rfl

-- == one bit of the stored code

lemma bootCorrectFaults_one (dat : Block) (c c' : Code) (hq : q < 8) :
    bootCorrectFaults dat c c' (bit 8 q) 0#8 0#8 = ⟨2, dat, c'⟩ ∧
    bootCorrectFaults dat c c' 0#8 (bit 8 q) 0#8 = ⟨2, dat, c'⟩ ∧
    bootCorrectFaults dat c c' 0#8 0#8 (bit 8 q) = ⟨2, dat, c'⟩ := by
  have hfacts : ∀ q, q < 8 → onePerPair 0x55#8 0#8 = false ∧ bit 8 q ≠ 0#8 ∧
      countLoop 8 (bit 8 q) 0 = 1 ∧ countLoop 8 0#8 0 = 0 ∧
      countLoop 8 0#8 1 = 1 := by decide
  obtain ⟨hzero, hne, hone, hnone, hkept⟩ := hfacts q hq
  unfold bootCorrectFaults
  simp [hzero, hne, hone, hnone, hkept]

lemma boot_corrects_code (dat : Block) (c : Code) {t : Nat} (ht : t < 24) :
    bootCorrectData dat (flipCode c t) c = ⟨2, dat, c⟩ := by
  unfold bootCorrectData flipCode
  split_ifs with hfirst hsecond
  all_goals simp only [← xor_assoc, BitVec.xor_self, zero_xor]
  · exact (bootCorrectFaults_one _ _ _ hfirst).1
  · exact (bootCorrectFaults_one _ _ _ (by omega)).2.1
  · exact (bootCorrectFaults_one _ _ _ (by omega)).2.2

-- == two errors

lemma bootCorrectFaults_doubled (dat : Block) (c c' : Code)
    {d1 d2 d3 : BitVec 8} (hpair : onePerPair 0x55 d1 = false) (hne : ¬d1 ||| d2 ||| d3 = 0)
    (heven : (countLoop 8 d1 0 + countLoop 8 d2 0 + countLoop 8 d3 0) % 2 = 0) :
    bootCorrectFaults dat c c' d1 d2 d3 = ⟨-1, dat, c⟩ := by
  unfold bootCorrectFaults
  rw [if_neg hne, if_neg]
  · dsimp only
    rw [countLoop_add 8 d3, countLoop_add 8 d2, if_neg]
    omega
  · intro hall
    rw [hpair] at hall
    exact Bool.false_ne_true hall.1

lemma boot_detects_two (buf : Block) {p' q' : Nat} (hp : p < 256) (hq : q < 8)
    (hp' : p' < 256) (hq' : q' < 8) (hne : (p, q) ≠ (p', q')) :
    bootCorrectData (flip (flip buf p q) p' q') (bootCalculateEcc buf)
      (bootCalculateEcc (flip (flip buf p q) p' q'))
      = ⟨-1, flip (flip buf p q) p' q', bootCalculateEcc buf⟩ := by
  have hbytes : p < EccSize.s256.bytes := hp
  have hbytes' : p' < EccSize.s256.bytes := hp'
  rw [bootCorrectData_ecc, low_syndrome_two hp hq hp' hq',
    low_syndrome_two hp hq hp' hq', column_syndrome_two hbytes hq hbytes' hq']
  apply bootCorrectFaults_doubled
  · rw [errorBits_xor_errorBits]
    exact (doubled_facts _ _ _ _).1
  · rw [or_comm (_ ^^^ pack (errorBits p' 4))]
    exact syndromes_ne_zero hbytes hq hbytes' hq' hne
  · rw [errorBits_xor_errorBits, errorBits_xor_errorBits,
      errorColumn_xor_errorColumn, Nat.add_mod, Nat.add_mod (countLoop _ _ _),
      countLoop_doubled, countLoop_doubled, countLoop_doubled]

-- == the result

/-- The boot loader corrects one error and detects two: a flipped bit of the
data is flipped back, for a flipped bit of the stored code the code is replaced,
and two flipped bits of the data are reported and left. -/
theorem boot_corrects_one_detects_two (buf : Block) :
    (∀ p q, p < 256 → q < 8 → bootCorrectData (flip buf p q) (bootCalculateEcc buf)
        (bootCalculateEcc (flip buf p q)) = ⟨1, buf, bootCalculateEcc buf⟩) ∧
    (∀ t, t < 24 → bootCorrectData buf (flipCode (bootCalculateEcc buf) t)
        (bootCalculateEcc buf) = ⟨2, buf, bootCalculateEcc buf⟩) ∧
    (∀ p q p' q', p < 256 → q < 8 → p' < 256 → q' < 8 → (p, q) ≠ (p', q') →
      bootCorrectData (flip (flip buf p q) p' q') (bootCalculateEcc buf)
        (bootCalculateEcc (flip (flip buf p q) p' q'))
        = ⟨-1, flip (flip buf p q) p' q', bootCalculateEcc buf⟩) := by
  refine ⟨?_, ?_, ?_⟩
  · intro p q hp hq
    have hbytes : p < EccSize.s256.bytes := hp
    rw [bootCorrectData_ecc, low_syndrome hp hq, low_syndrome hp hq,
      column_syndrome hbytes hq, bootCorrectFaults_spell _ _ _ hp hq, flip_flip]
  · intro t ht
    exact boot_corrects_code buf _ ht
  · intro p q p' q' hp hq hp' hq' hne
    exact boot_detects_two buf hp hq hp' hq' hne

theorem zeroBlock_boot_corrected :
    bootCorrectData (flip (fun _ => 0) 255 7) (bootCalculateEcc fun _ => 0)
      (bootCalculateEcc (flip (fun _ => 0) 255 7))
      = ⟨1, fun _ => 0, bootCalculateEcc fun _ => 0⟩ :=
  (boot_corrects_one_detects_two fun _ => 0).1 255 7 (by decide) (by decide)

end BoardStack.NandEcc
