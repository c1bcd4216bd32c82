/-
The error correction code of NAND pages: drivers/mtd/nand/nand_ecc.c of the
kernel, for blocks of 256 and of 512 bytes, and drivers/nand/nand_ecc.c of the
boot loader, for blocks of 256 bytes.

A block is a function from offsets to bytes. The kernel reads it by words in
the byte order of the machine, and `CONFIG_MTD_NAND_ECC_SMC` exchanges two
bytes of its code; both are parameters. `rp17`, which the kernel leaves
without a value for blocks of 256 bytes, is not read then.
-/
import Mathlib.Tactic.Ring
import BoardStack.Base.Bits

namespace BoardStack.NandEcc

open Base

abbrev Block := Nat → BitVec 8

structure Code where
  code0 : BitVec 8
  code1 : BitVec 8
  code2 : BitVec 8
deriving DecidableEq, Repr

/-- What the kernel is built for: the byte order, and
`CONFIG_MTD_NAND_ECC_SMC`. -/
structure Config where
  bigEndian : Bool
  smc : Bool
deriving DecidableEq, Repr

/-- `ecc.size`. -/
inductive EccSize
  | s256
  | s512
deriving DecidableEq, Repr

/-- `eccsize_mult`. -/
def EccSize.mult : EccSize → Nat
  | .s256 => 1
  | .s512 => 2

def EccSize.bytes (size : EccSize) : Nat := 256 * size.mult

-- == tables

/-- `invparity`. -/
def invparityTable : List Nat :=
  [1, 0, 0, 1, 0, 1, 1, 0, 0, 1, 1, 0, 1, 0, 0, 1, 0, 1, 1, 0, 1, 0, 0, 1, 1, 0, 0, 1, 0, 1, 1, 0,
    0, 1, 1, 0, 1, 0, 0, 1, 1, 0, 0, 1, 0, 1, 1, 0,
    1, 0, 0, 1, 0, 1, 1, 0, 0, 1, 1, 0, 1, 0, 0, 1,
    0, 1, 1, 0, 1, 0, 0, 1, 1, 0, 0, 1, 0, 1, 1, 0,
    1, 0, 0, 1, 0, 1, 1, 0, 0, 1, 1, 0, 1, 0, 0, 1,
    1, 0, 0, 1, 0, 1, 1, 0, 0, 1, 1, 0, 1, 0, 0, 1,
    0, 1, 1, 0, 1, 0, 0, 1, 1, 0, 0, 1, 0, 1, 1, 0,
    0, 1, 1, 0, 1, 0, 0, 1, 1, 0, 0, 1, 0, 1, 1, 0,
    1, 0, 0, 1, 0, 1, 1, 0, 0, 1, 1, 0, 1, 0, 0, 1,
    1, 0, 0, 1, 0, 1, 1, 0, 0, 1, 1, 0, 1, 0, 0, 1,
    0, 1, 1, 0, 1, 0, 0, 1, 1, 0, 0, 1, 0, 1, 1, 0,
    1, 0, 0, 1, 0, 1, 1, 0, 0, 1, 1, 0, 1, 0, 0, 1,
    0, 1, 1, 0, 1, 0, 0, 1, 1, 0, 0, 1, 0, 1, 1, 0,
    0, 1, 1, 0, 1, 0, 0, 1, 1, 0, 0, 1, 0, 1, 1, 0,
    1, 0, 0, 1, 0, 1, 1, 0, 0, 1, 1, 0, 1, 0, 0, 1
  ]

/-- `bitsperbyte`. -/
def bitsperbyteTable : List Nat :=
  [0, 1, 1, 2, 1, 2, 2, 3, 1, 2, 2, 3, 2, 3, 3, 4, 1, 2, 2, 3, 2, 3, 3, 4, 2, 3, 3, 4, 3, 4, 4, 5,
    1, 2, 2, 3, 2, 3, 3, 4, 2, 3, 3, 4, 3, 4, 4, 5,
    2, 3, 3, 4, 3, 4, 4, 5, 3, 4, 4, 5, 4, 5, 5, 6,
    1, 2, 2, 3, 2, 3, 3, 4, 2, 3, 3, 4, 3, 4, 4, 5,
    2, 3, 3, 4, 3, 4, 4, 5, 3, 4, 4, 5, 4, 5, 5, 6,
    2, 3, 3, 4, 3, 4, 4, 5, 3, 4, 4, 5, 4, 5, 5, 6,
    3, 4, 4, 5, 4, 5, 5, 6, 4, 5, 5, 6, 5, 6, 6, 7,
    1, 2, 2, 3, 2, 3, 3, 4, 2, 3, 3, 4, 3, 4, 4, 5,
    2, 3, 3, 4, 3, 4, 4, 5, 3, 4, 4, 5, 4, 5, 5, 6,
    2, 3, 3, 4, 3, 4, 4, 5, 3, 4, 4, 5, 4, 5, 5, 6,
    3, 4, 4, 5, 4, 5, 5, 6, 4, 5, 5, 6, 5, 6, 6, 7,
    2, 3, 3, 4, 3, 4, 4, 5, 3, 4, 4, 5, 4, 5, 5, 6,
    3, 4, 4, 5, 4, 5, 5, 6, 4, 5, 5, 6, 5, 6, 6, 7,
    3, 4, 4, 5, 4, 5, 5, 6, 4, 5, 5, 6, 5, 6, 6, 7,
    4, 5, 5, 6, 5, 6, 6, 7, 5, 6, 6, 7, 6, 7, 7, 8
  ]

/-- `addressbits`. -/
def addressbitsTable : List Nat :=
  [0x00, 0x00, 0x01, 0x01, 0x00, 0x00, 0x01, 0x01, 0x02, 0x02, 0x03, 0x03, 0x02, 0x02, 0x03, 0x03,
    0x00, 0x00, 0x01, 0x01, 0x00, 0x00, 0x01, 0x01,
    0x02, 0x02, 0x03, 0x03, 0x02, 0x02, 0x03, 0x03,
    0x04, 0x04, 0x05, 0x05, 0x04, 0x04, 0x05, 0x05,
    0x06, 0x06, 0x07, 0x07, 0x06, 0x06, 0x07, 0x07,
    0x04, 0x04, 0x05, 0x05, 0x04, 0x04, 0x05, 0x05,
    0x06, 0x06, 0x07, 0x07, 0x06, 0x06, 0x07, 0x07,
    0x00, 0x00, 0x01, 0x01, 0x00, 0x00, 0x01, 0x01,
    0x02, 0x02, 0x03, 0x03, 0x02, 0x02, 0x03, 0x03,
    0x00, 0x00, 0x01, 0x01, 0x00, 0x00, 0x01, 0x01,
    0x02, 0x02, 0x03, 0x03, 0x02, 0x02, 0x03, 0x03,
    0x04, 0x04, 0x05, 0x05, 0x04, 0x04, 0x05, 0x05,
    0x06, 0x06, 0x07, 0x07, 0x06, 0x06, 0x07, 0x07,
    0x04, 0x04, 0x05, 0x05, 0x04, 0x04, 0x05, 0x05,
    0x06, 0x06, 0x07, 0x07, 0x06, 0x06, 0x07, 0x07,
    0x08, 0x08, 0x09, 0x09, 0x08, 0x08, 0x09, 0x09,
    0x0a, 0x0a, 0x0b, 0x0b, 0x0a, 0x0a, 0x0b, 0x0b,
    0x08, 0x08, 0x09, 0x09, 0x08, 0x08, 0x09, 0x09,
    0x0a, 0x0a, 0x0b, 0x0b, 0x0a, 0x0a, 0x0b, 0x0b,
    0x0c, 0x0c, 0x0d, 0x0d, 0x0c, 0x0c, 0x0d, 0x0d,
    0x0e, 0x0e, 0x0f, 0x0f, 0x0e, 0x0e, 0x0f, 0x0f,
    0x0c, 0x0c, 0x0d, 0x0d, 0x0c, 0x0c, 0x0d, 0x0d,
    0x0e, 0x0e, 0x0f, 0x0f, 0x0e, 0x0e, 0x0f, 0x0f,
    0x08, 0x08, 0x09, 0x09, 0x08, 0x08, 0x09, 0x09,
    0x0a, 0x0a, 0x0b, 0x0b, 0x0a, 0x0a, 0x0b, 0x0b,
    0x08, 0x08, 0x09, 0x09, 0x08, 0x08, 0x09, 0x09,
    0x0a, 0x0a, 0x0b, 0x0b, 0x0a, 0x0a, 0x0b, 0x0b,
    0x0c, 0x0c, 0x0d, 0x0d, 0x0c, 0x0c, 0x0d, 0x0d,
    0x0e, 0x0e, 0x0f, 0x0f, 0x0e, 0x0e, 0x0f, 0x0f,
    0x0c, 0x0c, 0x0d, 0x0d, 0x0c, 0x0c, 0x0d, 0x0d,
    0x0e, 0x0e, 0x0f, 0x0f, 0x0e, 0x0e, 0x0f, 0x0f
  ]

def nandEccPrecalcTable : List Nat :=
  [0x00, 0x55, 0x56, 0x03, 0x59, 0x0c, 0x0f, 0x5a, 0x5a, 0x0f, 0x0c, 0x59, 0x03, 0x56, 0x55, 0x00,
    0x65, 0x30, 0x33, 0x66, 0x3c, 0x69, 0x6a, 0x3f,
    0x3f, 0x6a, 0x69, 0x3c, 0x66, 0x33, 0x30, 0x65,
    0x66, 0x33, 0x30, 0x65, 0x3f, 0x6a, 0x69, 0x3c,
    0x3c, 0x69, 0x6a, 0x3f, 0x65, 0x30, 0x33, 0x66,
    0x03, 0x56, 0x55, 0x00, 0x5a, 0x0f, 0x0c, 0x59,
    0x59, 0x0c, 0x0f, 0x5a, 0x00, 0x55, 0x56, 0x03,
    0x69, 0x3c, 0x3f, 0x6a, 0x30, 0x65, 0x66, 0x33,
    0x33, 0x66, 0x65, 0x30, 0x6a, 0x3f, 0x3c, 0x69,
    0x0c, 0x59, 0x5a, 0x0f, 0x55, 0x00, 0x03, 0x56,
    0x56, 0x03, 0x00, 0x55, 0x0f, 0x5a, 0x59, 0x0c,
    0x0f, 0x5a, 0x59, 0x0c, 0x56, 0x03, 0x00, 0x55,
    0x55, 0x00, 0x03, 0x56, 0x0c, 0x59, 0x5a, 0x0f,
    0x6a, 0x3f, 0x3c, 0x69, 0x33, 0x66, 0x65, 0x30,
    0x30, 0x65, 0x66, 0x33, 0x69, 0x3c, 0x3f, 0x6a,
    0x6a, 0x3f, 0x3c, 0x69, 0x33, 0x66, 0x65, 0x30,
    0x30, 0x65, 0x66, 0x33, 0x69, 0x3c, 0x3f, 0x6a,
    0x0f, 0x5a, 0x59, 0x0c, 0x56, 0x03, 0x00, 0x55,
    0x55, 0x00, 0x03, 0x56, 0x0c, 0x59, 0x5a, 0x0f,
    0x0c, 0x59, 0x5a, 0x0f, 0x55, 0x00, 0x03, 0x56,
    0x56, 0x03, 0x00, 0x55, 0x0f, 0x5a, 0x59, 0x0c,
    0x69, 0x3c, 0x3f, 0x6a, 0x30, 0x65, 0x66, 0x33,
    0x33, 0x66, 0x65, 0x30, 0x6a, 0x3f, 0x3c, 0x69,
    0x03, 0x56, 0x55, 0x00, 0x5a, 0x0f, 0x0c, 0x59,
    0x59, 0x0c, 0x0f, 0x5a, 0x00, 0x55, 0x56, 0x03,
    0x66, 0x33, 0x30, 0x65, 0x3f, 0x6a, 0x69, 0x3c,
    0x3c, 0x69, 0x6a, 0x3f, 0x65, 0x30, 0x33, 0x66,
    0x65, 0x30, 0x33, 0x66, 0x3c, 0x69, 0x6a, 0x3f,
    0x3f, 0x6a, 0x69, 0x3c, 0x66, 0x33, 0x30, 0x65,
    0x00, 0x55, 0x56, 0x03, 0x59, 0x0c, 0x0f, 0x5a,
    0x5a, 0x0f, 0x0c, 0x59, 0x03, 0x56, 0x55, 0x00
  ]

def lookup (table : List Nat) (x : BitVec 8) : Nat := table.getD x.toNat 0

-- == the kernel

structure Acc where
  par : BitVec 32
  rp4 : BitVec 32
  rp6 : BitVec 32
  rp8 : BitVec 32
  rp10 : BitVec 32
  rp12 : BitVec 32
  rp14 : BitVec 32
  rp16 : BitVec 32

def wordOf (cfg : Config) (x₀ x₁ x₂ x₃ : BitVec 8) : BitVec 32 :=
  if cfg.bigEndian then x₀ ++ x₁ ++ x₂ ++ x₃ else x₃ ++ x₂ ++ x₁ ++ x₀

/-- `bp[w]`. -/
def wordAt (cfg : Config) (buf : Block) (w : Nat) : BitVec 32 :=
  wordOf cfg (buf (4 * w)) (buf (4 * w + 1)) (buf (4 * w + 2)) (buf (4 * w + 3))

def turn (size : EccSize) (w : Nat → BitVec 32) (i : Nat) (a : Acc) : Acc :=
  let cur := w 0
  let tmppar := cur
  let rp4 := a.rp4 ^^^ cur
  let cur := w 1
  let tmppar := tmppar ^^^ cur
  let rp6 := a.rp6 ^^^ tmppar
  let cur := w 2
  let tmppar := tmppar ^^^ cur
  let rp4 := rp4 ^^^ cur
  let cur := w 3
  let tmppar := tmppar ^^^ cur
  let rp8 := a.rp8 ^^^ tmppar
  let cur := w 4
  let tmppar := tmppar ^^^ cur
  let rp4 := rp4 ^^^ cur
  let rp6 := rp6 ^^^ cur
  let cur := w 5
  let tmppar := tmppar ^^^ cur
  let rp6 := rp6 ^^^ cur
  let cur := w 6
  let tmppar := tmppar ^^^ cur
  let rp4 := rp4 ^^^ cur
  let cur := w 7
  let tmppar := tmppar ^^^ cur
  let rp10 := a.rp10 ^^^ tmppar
  let cur := w 8
  let tmppar := tmppar ^^^ cur
  let rp4 := rp4 ^^^ cur
  let rp6 := rp6 ^^^ cur
  let rp8 := rp8 ^^^ cur
  let cur := w 9
  let tmppar := tmppar ^^^ cur
  let rp6 := rp6 ^^^ cur
  let rp8 := rp8 ^^^ cur
  let cur := w 10
  let tmppar := tmppar ^^^ cur
  let rp4 := rp4 ^^^ cur
  let rp8 := rp8 ^^^ cur
  let cur := w 11
  let tmppar := tmppar ^^^ cur
  let rp8 := rp8 ^^^ cur
  let cur := w 12
  let tmppar := tmppar ^^^ cur
  let rp4 := rp4 ^^^ cur
  let rp6 := rp6 ^^^ cur
  let cur := w 13
  let tmppar := tmppar ^^^ cur
  let rp6 := rp6 ^^^ cur
  let cur := w 14
  let tmppar := tmppar ^^^ cur
  let rp4 := rp4 ^^^ cur
  let cur := w 15
  let tmppar := tmppar ^^^ cur
  { par := a.par ^^^ tmppar
    rp4 := rp4
    rp6 := rp6
    rp8 := rp8
    rp10 := rp10
    rp12 := if i &&& 0x1 = 0 then a.rp12 ^^^ tmppar else a.rp12
    rp14 := if i &&& 0x2 = 0 then a.rp14 ^^^ tmppar else a.rp14
    rp16 := if size.mult = 2 ∧ i &&& 0x4 = 0 then a.rp16 ^^^ tmppar
      else a.rp16 }

/-- `for (i = 0; i < eccsize_mult << 2; i++)`. -/
def accumulate (cfg : Config) (size : EccSize) (buf : Block) : Nat → Acc
  | 0 => ⟨0, 0, 0, 0, 0, 0, 0, 0⟩
  | i + 1 =>
    turn size (fun t => wordAt cfg buf (16 * i + t)) i (accumulate cfg size buf i)

/-- Fold the upper and lower 16 bits, then the upper and lower 8 bits. -/
def fold (rp : BitVec 32) : BitVec 8 :=
  let rp := rp ^^^ rp >>> 16
  let rp := rp ^^^ rp >>> 8
  (rp &&& 0xff).setWidth 8

def foldHalf (rp : BitVec 32) : BitVec 8 :=
  let rp := rp ^^^ rp >>> 8
  (rp &&& 0xff).setWidth 8

/-- `invparity[rp]`, as it is shifted into a byte of the code. -/
def invparity (rp : BitVec 8) : BitVec 8 := BitVec.ofNat 8 (lookup invparityTable rp)

/-- `nand_calculate_ecc` of the kernel. -/
def nandCalculateEcc (cfg : Config) (size : EccSize) (buf : Block) : Code :=
  let a := accumulate cfg size buf (size.mult <<< 2)
  let rp4 := fold a.rp4
  let rp6 := fold a.rp6
  let rp8 := fold a.rp8
  let rp10 := fold a.rp10
  let rp12 := fold a.rp12
  let rp14 := fold a.rp14
  let rp16 := fold a.rp16
  let upper := foldHalf (a.par >>> 16)
  let lower := foldHalf (a.par &&& 0xffff)
  let rp2 := if cfg.bigEndian then upper else lower
  let rp3 := if cfg.bigEndian then lower else upper
  let par := a.par ^^^ a.par >>> 16
  let odd := (par >>> 8 &&& 0xff).setWidth 8
  let even := (par &&& 0xff).setWidth 8
  let rp0 := if cfg.bigEndian then odd else even
  let rp1 := if cfg.bigEndian then even else odd
  let par := foldHalf par
  let rp5 := par ^^^ rp4
  let rp7 := par ^^^ rp6
  let rp9 := par ^^^ rp8
  let rp11 := par ^^^ rp10
  let rp13 := par ^^^ rp12
  let rp15 := par ^^^ rp14
  let rp17 := par ^^^ rp16
  let low := invparity rp7 <<< 7 ||| invparity rp6 <<< 6 |||
    invparity rp5 <<< 5 ||| invparity rp4 <<< 4 ||| invparity rp3 <<< 3 |||
    invparity rp2 <<< 2 ||| invparity rp1 <<< 1 ||| invparity rp0 <<< 0
  let high := invparity rp15 <<< 7 ||| invparity rp14 <<< 6 |||
    invparity rp13 <<< 5 ||| invparity rp12 <<< 4 ||| invparity rp11 <<< 3 |||
    invparity rp10 <<< 2 ||| invparity rp9 <<< 1 ||| invparity rp8 <<< 0
  let column := invparity (par &&& 0xf0) <<< 7 |||
    invparity (par &&& 0x0f) <<< 6 ||| invparity (par &&& 0xcc) <<< 5 |||
    invparity (par &&& 0x33) <<< 4 ||| invparity (par &&& 0xaa) <<< 3 |||
    invparity (par &&& 0x55) <<< 2
  { code0 := if cfg.smc then low else high
    code1 := if cfg.smc then high else low
    code2 := if size.mult = 1 then column ||| 3
      else column ||| invparity rp17 <<< 1 ||| invparity rp16 <<< 0 }

/-- What `nand_correct_data` returns, and the block it leaves. -/
structure Corrected where
  ret : Int
  buf : Block

/-- `((b ^ (b >> 1)) & mask) == mask`. -/
def onePerPair (mask b : BitVec 8) : Bool := (b ^^^ b >>> 1) &&& mask == mask

/-- `buf[p] ^= 1 << q`. -/
def flip (buf : Block) (p q : Nat) : Block := Function.update buf p (buf p ^^^ bit 8 q)

/-- `nand_correct_data`, from the bits in which the codes differ. -/
def correctFaults (size : EccSize) (buf : Block) (b0 b1 b2 : BitVec 8) :
    Corrected :=
  if b0 ||| b1 ||| b2 = 0 then ⟨0, buf⟩
  else if onePerPair 0x55 b0 ∧ onePerPair 0x55 b1 ∧ (size.mult = 1 ∧ onePerPair 0x54 b2 ∨
        size.mult = 2 ∧ onePerPair 0x55 b2) then
    let low := lookup addressbitsTable b1 <<< 4 + lookup addressbitsTable b0
    -- an unsigned char
    let byteAddr := if size.mult = 1 then low % 2 ^ 8
      else (lookup addressbitsTable (b2 &&& 0x3) <<< 8 + low) % 2 ^ 8
    let bitAddr := lookup addressbitsTable (b2 >>> 2) % 2 ^ 8
    ⟨1, flip buf byteAddr bitAddr⟩
  else if lookup bitsperbyteTable b0 + lookup bitsperbyteTable b1
      + lookup bitsperbyteTable b2 = 1 then ⟨1, buf⟩
  else ⟨-1, buf⟩

/-- `nand_correct_data` of the kernel. -/
def nandCorrectData (cfg : Config) (size : EccSize) (buf : Block)
    (readEcc calcEcc : Code) : Corrected :=
  let d0 := readEcc.code0 ^^^ calcEcc.code0
  let d1 := readEcc.code1 ^^^ calcEcc.code1
  correctFaults size buf (if cfg.smc then d0 else d1)
    (if cfg.smc then d1 else d0) (readEcc.code2 ^^^ calcEcc.code2)

-- == the boot loader

structure Regs where
  reg1 : BitVec 8
  reg2 : BitVec 8
  reg3 : BitVec 8

/-- Build up column parity. -/
def regs (dat : Block) : Nat → Regs
  | 0 => ⟨0, 0, 0⟩
  | j + 1 =>
    let r := regs dat j
    let idx := BitVec.ofNat 8 (lookup nandEccPrecalcTable (dat j))
    let reg1 := r.reg1 ^^^ (idx &&& 0x3f)
    if idx &&& 0x40 ≠ 0 then
      ⟨reg1, r.reg2 ^^^ ~~~BitVec.ofNat 8 j, r.reg3 ^^^ BitVec.ofNat 8 j⟩
    else ⟨reg1, r.reg2, r.reg3⟩

/-- One turn of the loops of `nand_trans_result`: `tmp`, `a` and `b`. -/
def transTurn (reg2 reg3 : BitVec 8) (s : BitVec 8 × BitVec 8 × BitVec 8) :
    BitVec 8 × BitVec 8 × BitVec 8 :=
  let tmp := s.1
  let a := s.2.1
  let b := s.2.2
  let tmp := if reg3 &&& a ≠ 0 then tmp ||| b else tmp
  let b := b >>> 1
  let tmp := if reg2 &&& a ≠ 0 then tmp ||| b else tmp
  (tmp, a >>> 1, b >>> 1)

/-- Four turns. -/
def transLoop (reg2 reg3 a : BitVec 8) : BitVec 8 × BitVec 8 × BitVec 8 :=
  (List.range 4).foldl (fun s _ => transTurn reg2 reg3 s) (0, a, 0x80)

/-- `nand_trans_result`: the first two bytes. -/
def nandTransResult (reg2 reg3 : BitVec 8) : BitVec 8 × BitVec 8 :=
  let first := transLoop reg2 reg3 0x80
  let second := transLoop reg2 reg3 first.2.1
  (first.1, second.1)

/-- `nand_calculate_ecc` of the boot loader. -/
def bootCalculateEcc (dat : Block) : Code :=
  let r := regs dat 256
  let lines := nandTransResult r.reg2 r.reg3
  ⟨~~~lines.1, ~~~lines.2, (~~~r.reg1) <<< 2 ||| 0x03⟩

end BoardStack.NandEcc
