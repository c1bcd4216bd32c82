/-
Address mapping of RAID 4, 5 and 6 arrays: drivers/md/raid5.c.

`raid5_compute_sector` maps a sector of the array to a disk and a sector on
the disks, `compute_blocknr` maps back, and checks itself with the first.
The choice of the disks inside a stripe is `selectDisks`, its inverse
`dataIndex`: the two `switch` statements, one case per layout.

`int` and `long` wrap as the compiler is told to make them. `a` is the width
of `long`, `b` that of `sector_t`. A `BUG()` or a division by zero is `none`.
The disks of a stripe are counted as `int`; the parity disks are kept in a
`struct stripe_head`, where they are `short`.
-/
import BoardStack.Base.Bits
import BoardStack.Base.CInt

namespace BoardStack.Raid5

open Base

/-- `conf->level`. -/
inductive Level
  | four
  | five
  | six
deriving DecidableEq, Repr

/-- `ALGORITHM_LEFT_ASYMMETRIC` and so on; `ALGORITHM_PARITY_N_6` is the
same number as `ALGORITHM_PARITY_N`. -/
inductive Algorithm
  | leftAsymmetric
  | rightAsymmetric
  | leftSymmetric
  | rightSymmetric
  | parity0
  | parityN
  | rotatingZeroRestart
  | rotatingNRestart
  | rotatingNContinue
  | leftAsymmetric6
  | rightAsymmetric6
  | leftSymmetric6
  | rightSymmetric6
  | parity06
deriving DecidableEq, Repr

/-- What the mapping reads of `raid5_conf_t`. -/
structure Conf where
  level : Level
  algorithm : Algorithm
  prevAlgo : Algorithm
  chunkSize : Int
  prevChunk : Int
  raidDisks : Int
  previousRaidDisks : Int
  maxDegraded : Int

/-- What it reads of `struct stripe_head`. -/
structure StripeHead where
  sector : Nat
  disks : Int
  pdIdx : BitVec 16
  qdIdx : BitVec 16
deriving DecidableEq, Repr

/-- The disks of a stripe that belong to one data chunk, as they are computed. -/
structure Disks where
  pdIdx : Int
  qdIdx : Int
  ddIdx : Int
  ddfLayout : Bool
deriving DecidableEq, Repr

/-- What `raid5_compute_sector` leaves in `*dd_idx` and in the `stripe_head`. -/
structure Placement where
  pdIdx : BitVec 16
  qdIdx : BitVec 16
  ddIdx : Int
  ddfLayout : Bool
deriving DecidableEq, Repr

def Disks.store (d : Disks) : Placement :=
  ⟨BitVec.ofInt 16 d.pdIdx, BitVec.ofInt 16 d.qdIdx, d.ddIdx, d.ddfLayout⟩

/-- A C `int`. -/
def int (x : Int) : Int := signed 32 x

/-- `previous ? conf->prev_algo : conf->algorithm`. -/
def Conf.algo (conf : Conf) (previous : Bool) : Algorithm :=
  if previous then conf.prevAlgo else conf.algorithm

def Conf.sectorsPerChunk (conf : Conf) (previous : Bool) : Int :=
  (if previous then conf.prevChunk else conf.chunkSize) >>> (9 : Nat)

/-- The number of disks `raid5_compute_sector` uses. -/
def Conf.disks (conf : Conf) (previous : Bool) : Int :=
  if previous then conf.previousRaidDisks else conf.raidDisks

/-- `sector_div`: quotient and remainder. -/
def sectorDiv (n : Nat) (b : Int) : Option (Nat × Nat) :=
  if b ≤ 0 then none else some (n / b.toNat, n % b.toNat)

-- == forward

def selectDisks5 (algorithm : Algorithm) (raidDisks dataDisks stripe ddIdx : Int) : Option Disks :=
  let asymmetric (pdIdx : Int) : Disks :=
    ⟨pdIdx, -1, if ddIdx ≥ pdIdx then int (ddIdx + 1) else ddIdx, false⟩
  let symmetric (pdIdx : Int) : Disks :=
    ⟨pdIdx, -1, (int (pdIdx + 1 + ddIdx)).tmod raidDisks, false⟩
  match algorithm with
  | .leftAsymmetric =>
    some (asymmetric (int (dataDisks - stripe.tmod raidDisks)))
  | .rightAsymmetric => some (asymmetric (int (stripe.tmod raidDisks)))
  | .leftSymmetric =>
    some (symmetric (int (dataDisks - stripe.tmod raidDisks)))
  | .rightSymmetric => some (symmetric (int (stripe.tmod raidDisks)))
  | .parity0 => some ⟨0, -1, int (ddIdx + 1), false⟩
  | .parityN => some ⟨dataDisks, -1, ddIdx, false⟩
  | _ => none

def selectDisks6 (a : WordSize) (algorithm : Algorithm)
    (raidDisks dataDisks stripe ddIdx : Int) : Option Disks :=
  -- Q follows P, or is the first disk: Q D D D P and D D P Q D
  let asymmetric (pdIdx : Int) (ddfLayout : Bool) : Disks :=
    if pdIdx = int (raidDisks - 1) then
      ⟨pdIdx, 0, int (ddIdx + 1), ddfLayout⟩
    else
      ⟨pdIdx, int (pdIdx + 1),
        if ddIdx ≥ pdIdx then int (ddIdx + 2) else ddIdx, ddfLayout⟩
  let symmetric (pdIdx : Int) : Disks :=
    ⟨pdIdx, (int (pdIdx + 1)).tmod raidDisks, (int (pdIdx + 2 + ddIdx)).tmod raidDisks, false⟩
  -- a level 5 layout of all disks but the last, which has Q
  let asymmetric5 (pdIdx : Int) : Disks :=
    ⟨pdIdx, int (raidDisks - 1),
      if ddIdx ≥ pdIdx then int (ddIdx + 1) else ddIdx, false⟩
  let symmetric5 (pdIdx : Int) : Disks :=
    ⟨pdIdx, int (raidDisks - 1), (int (pdIdx + 1 + ddIdx)).tmod (int (raidDisks - 1)), false⟩
  match algorithm with
  | .leftAsymmetric =>
    some (asymmetric (int (raidDisks - 1 - stripe.tmod raidDisks)) false)
  | .rightAsymmetric => some (asymmetric (int (stripe.tmod raidDisks)) false)
  | .leftSymmetric =>
    some (symmetric (int (raidDisks - 1 - stripe.tmod raidDisks)))
  | .rightSymmetric => some (symmetric (int (stripe.tmod raidDisks)))
  | .parity0 => some ⟨0, 1, int (ddIdx + 2), false⟩
  | .parityN => some ⟨dataDisks, int (dataDisks + 1), ddIdx, false⟩
  | .rotatingZeroRestart =>
    some (asymmetric (int (stripe.tmod raidDisks)) true)
  | .rotatingNRestart =>
    some (asymmetric (int (raidDisks - 1 - (signed a.bits (stripe + 1)).tmod raidDisks)) true)
  | .rotatingNContinue =>
    let pdIdx := int (raidDisks - 1 - stripe.tmod raidDisks)
    some ⟨pdIdx, (int (pdIdx + raidDisks - 1)).tmod raidDisks,
      (int (pdIdx + 1 + ddIdx)).tmod raidDisks, true⟩
  | .leftAsymmetric6 =>
    some (asymmetric5 (int (dataDisks - stripe.tmod (int (raidDisks - 1)))))
  | .rightAsymmetric6 =>
    some (asymmetric5 (int (stripe.tmod (int (raidDisks - 1)))))
  | .leftSymmetric6 =>
    some (symmetric5 (int (dataDisks - stripe.tmod (int (raidDisks - 1)))))
  | .rightSymmetric6 =>
    some (symmetric5 (int (stripe.tmod (int (raidDisks - 1)))))
  | .parity06 => some ⟨0, int (raidDisks - 1), int (ddIdx + 1), false⟩

/-- The parity disks of a stripe, and the disk of its data chunk `ddIdx`. -/
def selectDisks (a : WordSize) (level : Level) (algorithm : Algorithm)
    (raidDisks dataDisks stripe ddIdx : Int) : Option Disks :=
  match level with
  | .four => some ⟨dataDisks, -1, ddIdx, false⟩
  | .five => selectDisks5 algorithm raidDisks dataDisks stripe ddIdx
  | .six => selectDisks6 a algorithm raidDisks dataDisks stripe ddIdx

/-- `raid5_compute_sector`: the sector on the disks, and which disks. -/
def raid5ComputeSector (a b : WordSize) (conf : Conf) (rSector : Nat)
    (previous : Bool) : Option (Nat × Placement) := do
  let raidDisks := conf.disks previous
  let dataDisks := int (raidDisks - conf.maxDegraded)
  let sectorsPerChunk := conf.sectorsPerChunk previous
  let (rSector, chunkOffset) ← sectorDiv rSector sectorsPerChunk
  let chunkNumber := unsigned a.bits rSector
  if rSector ≠ chunkNumber ∨ dataDisks = 0 then none
  else
    let stripe := signed a.bits (chunkNumber / unsigned a.bits dataDisks : Nat)
    let ddIdx := int (chunkNumber % unsigned a.bits dataDisks : Nat)
    let disks ← selectDisks a conf.level (conf.algo previous) raidDisks dataDisks stripe ddIdx
    some (unsigned b.bits (stripe * sectorsPerChunk + chunkOffset), disks.store)

-- == inverse

/-- The data chunk of a stripe that disk `i` holds: level 5. -/
def dataIndex5 (algorithm : Algorithm) (raidDisks pdIdx i : Int) : Option Int :=
  match algorithm with
  | .leftAsymmetric | .rightAsymmetric =>
    some (if i > pdIdx then int (i - 1) else i)
  | .leftSymmetric | .rightSymmetric =>
    some (int ((if i < pdIdx then int (i + raidDisks) else i) - (pdIdx + 1)))
  | .parity0 => some (int (i - 1))
  | .parityN => some i
  | _ => none

/-- The data chunk of a stripe that disk `i` holds: level 6. -/
def dataIndex6 (algorithm : Algorithm) (raidDisks dataDisks pdIdx i : Int) : Option Int :=
  match algorithm with
  | .leftAsymmetric | .rightAsymmetric | .rotatingZeroRestart
  | .rotatingNRestart =>
    some (if pdIdx = int (raidDisks - 1) then int (i - 1)
      else if i > pdIdx then int (i - 2) else i)
  | .leftSymmetric | .rightSymmetric =>
    some (if pdIdx = int (raidDisks - 1) then int (i - 1)
      else int ((if i < pdIdx then int (i + raidDisks) else i) - (pdIdx + 2)))
  | .parity0 => some (int (i - 2))
  | .parityN => some i
  | .rotatingNContinue =>
    some (if pdIdx = 0 then int (i - 1)
      else if i > pdIdx then int (i - 2) else i)
  | .leftAsymmetric6 | .rightAsymmetric6 =>
    some (if i > pdIdx then int (i - 1) else i)
  | .leftSymmetric6 | .rightSymmetric6 =>
    some (int ((if i < pdIdx then int (i + (dataDisks + 1)) else i) - (pdIdx + 1)))
  | .parity06 => some (int (i - 1))

/-- The data chunk of a stripe that disk `i` holds. -/
def dataIndex (level : Level) (algorithm : Algorithm)
    (raidDisks dataDisks pdIdx i : Int) : Option Int :=
  match level with
  | .four => some i
  | .five => dataIndex5 algorithm raidDisks pdIdx i
  | .six => dataIndex6 algorithm raidDisks dataDisks pdIdx i

/-- `compute_blocknr`: the array sector, 0 for a parity disk and when the
way back does not lead to the stripe. -/
def computeBlocknr (a b : WordSize) (conf : Conf) (sh : StripeHead) (i : Int)
    (previous : Bool) : Option Nat := do
  let dataDisks := int (sh.disks - conf.maxDegraded)
  let sectorsPerChunk := conf.sectorsPerChunk previous
  let (stripe, chunkOffset) ← sectorDiv sh.sector sectorsPerChunk
  if i = sh.pdIdx.toInt then return 0
  else if conf.level = .six ∧ i = sh.qdIdx.toInt then return 0
  else
    let j ← dataIndex conf.level (conf.algo previous) sh.disks dataDisks sh.pdIdx.toInt i
    let chunkNumber := int (unsigned b.bits (stripe * dataDisks + j))
    let rSector := unsigned b.bits (chunkNumber * sectorsPerChunk + int chunkOffset)
    let (check, sh2) ← raid5ComputeSector a b conf rSector previous
    if check ≠ sh.sector ∨ sh2.ddIdx ≠ i ∨ sh2.pdIdx ≠ sh.pdIdx ∨ sh2.qdIdx ≠ sh.qdIdx then return 0
    else return rSector

end BoardStack.Raid5
