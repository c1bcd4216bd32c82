/-
Partitions from the kernel's command line (drivers/mtd/cmdlinepart.c).

The text is read once and the partitions are fitted to a device later. `w` is the width of
`unsigned long`. Allocations succeed.

The loop that fits them stops at a partition that ends behind the device, but the sum it
compares has 64 bits, and what is left of a device for a partition behind its end is a
negative number of bytes. Nothing else can put a partition outside
(`parseCmdlinePartitions_inside_iff`).
-/
import BoardStack.Vsprintf.Basic

namespace BoardStack.Cmdlinepart

open Vsprintf

/-- `UINT_MAX`: `SIZE_REMAINING` and `OFFSET_CONTINUOUS`. -/
def uintMax : Nat := 2 ^ 32 - 1

def pageSize : Nat := 4096

/-- `struct mtd_partition`. Without a name it is called by its number; the flags are those
of `mask_flags`. -/
structure MtdPartition where
  name : Option (List UInt8)
  size : Nat
  offset : Nat
  writeable : Bool
  powerupLock : Bool

/-- `strchr`: what is before the character, and behind it. -/
def cut (c : Char) (s : List UInt8) : Option (List UInt8 × List UInt8) :=
  if c.toUInt8 ∈ s then
    some (s.takeWhile (· ≠ c.toUInt8), (s.dropWhile (· ≠ c.toUInt8)).tail)
  else none

/-- Going through the partitions of a device as long as they end on it: no sum of an
offset and a size wraps to one on the device, and what is left of the device begins
on it. -/
def fits (w msize : Nat) : List MtdPartition → Nat → Bool
  | [], _ => true
  | part :: parts, offset =>
    let start := if part.offset = uintMax then offset else part.offset
    if part.size = uintMax then decide (start ≤ msize) && fits w msize parts (msize % 2 ^ w)
    else (decide (start + part.size < 2 ^ 64) || decide (msize < (start + part.size) % 2 ^ 64)) &&
      (decide (msize < start + part.size) || fits w msize parts ((start + part.size) % 2 ^ w))

end BoardStack.Cmdlinepart
