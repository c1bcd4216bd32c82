/-
Mapping pairs of NTFS: fs/ntfs/runlist.c.

A runlist is the list of its elements. It ends with an element of length 0,
behind which nothing is read: `rl++` is the tail of the list. An `s64` is an
integer that wraps where the source combines numbers, memory is a function
from addresses to bytes, and an array that was allocated is a function from
its indices. Allocations succeed. A decompression is modelled with no runlist
to merge its result with.
-/
import BoardStack.Base.Bytes
import BoardStack.Base.CInt

namespace BoardStack.Ntfs

open Base Function

structure RunlistElement where
  vcn : Int
  lcn : Int
  length : Int
deriving DecidableEq, Repr

def lcnHole : Int := -1

def lcnRlNotMapped : Int := -2

def lcnEnoent : Int := -3

/-- The fields of `ntfs_volume` that are read. -/
structure Volume where
  majorVer : Nat
  clusterSizeBits : Nat

def Volume.clusterSize (vol : Volume) : Int := 2 ^ vol.clusterSizeBits

/-- How a call fails: `BUG_ON`, an error, or a store outside an array. -/
inductive Failure
  | bug
  | einval
  | eio
  | enospc
  | fault
deriving DecidableEq, Repr

-- == significant bytes

/-- `l & 0xff`, as a byte. -/
def byte (l : Int) : UInt8 := UInt8.ofNat (unsigned 8 l)

/-- `do { l >>= 8; i++; } while (l != 0 && l != -1)`. After as many rounds as
an `s64` has bytes it has ended. -/
def nrLoop : Nat → Int → Nat → Nat
  | 0, _, i => i
  | k + 1, l, i =>
    let l := l >>> (8 : Nat)
    if l ≠ 0 ∧ l ≠ -1 then nrLoop k l (i + 1) else i + 1

def ntfsGetNrSignificantBytes (n : Int) : Nat :=
  let i := nrLoop 8 n 0
  let j := signed 8 (n >>> (8 * (i - 1) : Nat))
  -- If the sign bit is wrong, we need an extra byte.
  if n < 0 ∧ 0 ≤ j ∨ 0 < n ∧ j < 0 then i + 1 else i

/-- The same loop, storing the bytes: `dst` and `i` behind it, unless there is
no room. -/
def writeLoop (dstMax : Nat) : Nat → Mem → Nat → Int → Nat → Mem × Option (Nat × Nat)
  | 0, m, dst, _, i => (m, some (dst, i))
  | k + 1, m, dst, l, i =>
    if dstMax < dst then (m, none)
    else
      let m := update m dst (byte l)
      let l := l >>> (8 : Nat)
      if l ≠ 0 ∧ l ≠ -1 then writeLoop dstMax k m (dst + 1) l (i + 1)
      else (m, some (dst + 1, i + 1))

/-- The extra byte. -/
def writeSign (m : Mem) (dst dstMax : Nat) (n : Int) (i : Nat) : Mem × Option Nat :=
  let j := signed 8 (n >>> (8 * (i - 1) : Nat))
  if n < 0 ∧ 0 ≤ j then
    if dstMax < dst then (m, none)
    else (update m dst (byte (-1)), some (i + 1))
  else if 0 < n ∧ j < 0 then
    if dstMax < dst then (m, none)
    else (update m dst (byte 0), some (i + 1))
  else (m, some i)

/-- `ntfs_write_significant_bytes`; no number is `-ENOSPC`. -/
def ntfsWriteSignificantBytes (m : Mem) (dst dstMax : Nat) (n : Int) : Mem × Option Nat :=
  let r := writeLoop dstMax 8 m dst n 0
  r.2.elim (r.1, none) fun p => writeSign r.1 p.1 dstMax n p.2

-- == mapping pairs

/-- `rl[1].vcn`. -/
def nextVcn (rest : List RunlistElement) : Int := (rest.head?.map (·.vcn)).getD 0

/-- Skip to runlist element containing `first_vcn`. -/
def skipTo (firstVcn : Int) : List RunlistElement → List RunlistElement
  | [] => []
  | r :: rest =>
    if r.length ≠ 0 ∧ nextVcn rest ≤ firstVcn then skipTo firstVcn rest
    else r :: rest

/-- If `last_vcn` is given and finishes inside this run, cap the run length;
and whether it is the last run. -/
def capLength (lastVcn : Int) (r : RunlistElement) (rest : List RunlistElement) : Int × Bool :=
  if 0 ≤ lastVcn ∧ lastVcn < nextVcn rest then
    (if lastVcn + 1 < nextVcn rest then signed 64 (lastVcn + 1 - r.vcn)
      else r.length, true)
  else (r.length, false)

/-- `err_out`. -/
def runError (r : RunlistElement) : Failure :=
  if r.lcn = lcnRlNotMapped then .einval else .eio

/-- Whether the lcn of a run is stored: holes are not on NTFS 3.0+. -/
def Volume.stores (vol : Volume) (r : RunlistElement) : Prop := 0 ≤ r.lcn ∨ vol.majorVer < 3

instance (vol : Volume) (r : RunlistElement) : Decidable (vol.stores r) :=
  inferInstanceAs (Decidable (_ ∨ _))

/-- The lcn that a first partial run starts at. -/
def partialLcn (r : RunlistElement) (delta : Int) : Int :=
  if 0 ≤ r.lcn then signed 64 (r.lcn + delta) else r.lcn

/-- Do the full runs: `ntfs_get_size_for_mapping_pairs`. -/
def sizeRuns (vol : Volume) (lastVcn : Int) :
    List RunlistElement → Int → Nat → Bool → Except Failure Nat
  | [], _, _, _ => .error .fault
  | r :: rest, prevLcn, rls, theEnd =>
    if r.length ≠ 0 ∧ theEnd = false then
      if r.length < 0 ∨ r.lcn < lcnHole then .error (runError r)
      else
        let capped := capLength lastVcn r rest
        let rls := rls + (1 + ntfsGetNrSignificantBytes capped.1)
        if vol.stores r then
          sizeRuns vol lastVcn rest r.lcn
            (rls + ntfsGetNrSignificantBytes (signed 64 (r.lcn - prevLcn)))
            capped.2
        else sizeRuns vol lastVcn rest prevLcn rls capped.2
    else .ok rls

def badRange (firstVcn lastVcn : Int) : Prop :=
  firstVcn < 0 ∨ lastVcn < -1 ∨ 0 ≤ lastVcn ∧ lastVcn < firstVcn

instance (firstVcn lastVcn : Int) : Decidable (badRange firstVcn lastVcn) :=
  inferInstanceAs (Decidable (_ ∨ _ ∨ _))

def ntfsGetSizeForMappingPairs (vol : Volume)
    (rl : Option (List RunlistElement)) (firstVcn lastVcn : Int) :
    Except Failure Nat :=
  if badRange firstVcn lastVcn then .error .bug
  else
    match rl with
    | none => if firstVcn ≠ 0 ∨ 0 < lastVcn then .error .bug else .ok 1
    | some rl =>
      match skipTo firstVcn rl with
      | [] => .error .fault
      | r :: rest =>
        if r.length = 0 ∧ r.vcn < firstVcn ∨ firstVcn < r.vcn then
          .error .einval
        -- Do the first partial run if present.
        else if r.vcn < firstVcn then
          if r.length < 0 ∨ r.lcn < lcnHole then .error (runError r)
          else
            let capped := capLength lastVcn r rest
            let delta := signed 64 (firstVcn - r.vcn)
            let rls := 1 + (1 + ntfsGetNrSignificantBytes (signed 64 (capped.1 - delta)))
            if vol.stores r then
              sizeRuns vol lastVcn rest (partialLcn r delta)
                (rls + ntfsGetNrSignificantBytes (partialLcn r delta))
                capped.2
            else sizeRuns vol lastVcn rest 0 rls capped.2
        else sizeRuns vol lastVcn (r :: rest) 0 1 false

/-- One mapping pair: the length, the change in lcn unless it is not stored,
and the header byte. The address of the next pair, unless there is no room. -/
def writePair (m : Mem) (dst dstMax : Nat) (length : Int) (lcn : Option Int) : Mem × Option Nat :=
  let len := ntfsWriteSignificantBytes m (dst + 1) dstMax length
  len.2.elim (len.1, none) fun lenLen =>
    let change := lcn.elim (len.1, some 0) fun n =>
      ntfsWriteSignificantBytes len.1 (dst + 1 + lenLen) dstMax n
    change.2.elim (change.1, none) fun lcnLen =>
      let dstNext := dst + lenLen + lcnLen + 1
      if dstMax < dstNext then (change.1, none)
      else
        (update change.1 dst (UInt8.ofNat (lcnLen <<< 4 ||| lenLen)), some dstNext)

/-- What a build leaves: memory, the error if there is one, and `*stop_vcn`
where it is set. -/
structure Built where
  mem : Mem
  err : Option Failure
  stopVcn : Option Int

/-- `size_err`, where the success goes too. -/
def finish (m : Mem) (dst : Nat) (err : Option Failure) (r : RunlistElement) : Built :=
  ⟨update m dst 0, err, some r.vcn⟩

/-- Do the full runs: `ntfs_mapping_pairs_build`. -/
def buildRuns (vol : Volume) (lastVcn : Int) (dstMax : Nat) :
    List RunlistElement → Mem → Nat → Int → Bool → Built
  | [], m, _, _, _ => ⟨m, some .fault, none⟩
  | r :: rest, m, dst, prevLcn, theEnd =>
    if r.length ≠ 0 ∧ theEnd = false then
      if r.length < 0 ∨ r.lcn < lcnHole then ⟨m, some (runError r), none⟩
      else
        let capped := capLength lastVcn r rest
        let w := writePair m dst dstMax capped.1
          (if vol.stores r then some (signed 64 (r.lcn - prevLcn)) else none)
        w.2.elim (finish w.1 dst (some .enospc) r) fun dstNext =>
          buildRuns vol lastVcn dstMax rest w.1 dstNext
            (if vol.stores r then r.lcn else prevLcn) capped.2
    else finish m dst none r

def ntfsMappingPairsBuild (vol : Volume) (m : Mem) (dst dstLen : Nat)
    (rl : Option (List RunlistElement)) (firstVcn lastVcn : Int) : Built :=
  if badRange firstVcn lastVcn ∨ dstLen < 1 then ⟨m, some .bug, none⟩
  else
    match rl with
    | none =>
      if firstVcn ≠ 0 ∨ 0 < lastVcn then ⟨m, some .bug, none⟩
      else ⟨update m dst 0, none, some 0⟩
    | some rl =>
      match skipTo firstVcn rl with
      | [] => ⟨m, some .fault, none⟩
      | r :: rest =>
        if r.length = 0 ∧ r.vcn < firstVcn ∨ firstVcn < r.vcn then
          ⟨m, some .einval, none⟩
        -- Do the first partial run if present.
        else if r.vcn < firstVcn then
          if r.length < 0 ∨ r.lcn < lcnHole then
            ⟨m, some (runError r), none⟩
          else
            let capped := capLength lastVcn r rest
            let delta := signed 64 (firstVcn - r.vcn)
            let w := writePair m dst (dst + dstLen - 1) (signed 64 (capped.1 - delta))
              (if vol.stores r then some (partialLcn r delta) else none)
            w.2.elim (finish w.1 dst (some .enospc) r) fun dstNext =>
              buildRuns vol lastVcn (dst + dstLen - 1) rest w.1 dstNext
                (if vol.stores r then partialLcn r delta else 0) capped.2
        else
          buildRuns vol lastVcn (dst + dstLen - 1) (r :: rest) m dst 0 false

-- == decompression

/-- A non-resident attribute record: its fields that are read, and its bytes
at their offsets. -/
structure AttrRecord where
  length : Nat
  mappingPairsOffset : Nat
  lowestVcn : Int
  highestVcn : Int
  allocatedSize : Int
  bytes : Mem

/-- The state of a decompression: the position in the mapping pairs array, and
the runlist so far, in an array of `rlsize` bytes. -/
structure Decoder where
  buf : Nat
  vcn : Int
  lcn : Int
  rl : Nat → RunlistElement
  rlpos : Nat
  rlsize : Nat

def pageSize : Nat := 4096

/-- `sizeof(runlist_element)`. -/
def elementSize : Nat := 24

/-- `rl[rlpos] = e`. -/
def Decoder.put (d : Decoder) (e : RunlistElement) : Except Failure Decoder :=
  if (d.rlpos + 1) * elementSize ≤ d.rlsize then
    .ok { d with rl := update d.rl d.rlpos e }
  else .error .fault

/-- `rlpos++`, a `u16`. -/
def Decoder.advance (d : Decoder) : Decoder := { d with rlpos := (d.rlpos + 1) % 2 ^ 16 }

/-- `for (..; b > lo; b--) deltaxcn = (deltaxcn << 8) + buf[b]`. -/
def xcnLoop (m : Mem) (buf lo : Nat) : Nat → Int → Int
  | 0, deltaxcn => deltaxcn
  | b + 1, deltaxcn =>
    if lo < b + 1 then
      xcnLoop m buf lo b (signed 64 (deltaxcn * 2 ^ 8 + (m (buf + (b + 1))).toNat))
    else deltaxcn

/-- The number in the bytes `lo + 1`, .., `b`. -/
def readXcn (m : Mem) (buf lo b : Nat) : Int :=
  xcnLoop m buf lo (b - 1) (signed 8 (m (buf + b)).toNat)

def Decoder.grow (d : Decoder) : Decoder :=
  if d.rlsize < (d.rlpos + 3) * elementSize then
    { d with rlsize := d.rlsize + pageSize }
  else d

def decodeLcn (m : Mem) (attrEnd : Nat) (d : Decoder) : Except Failure (Int × Int) :=
  let head := (m d.buf).toNat
  if head &&& 0xf0 = 0 then .ok (lcnHole, d.lcn)
  else
    let b2 := head &&& 0xf
    let b := b2 + (head >>> 4 &&& 0xf)
    if attrEnd < d.buf + b then .error .eio
    else
      let lcn := signed 64 (d.lcn + readXcn m d.buf b2 b)
      if lcn < -1 then .error .eio else .ok (lcn, lcn)

def decodeLength (m : Mem) (attrEnd : Nat) (d : Decoder) : Except Failure Int :=
  let b := (m d.buf).toNat &&& 0xf
  if b = 0 ∨ attrEnd < d.buf + b then .error .eio
  else
    let deltaxcn := readXcn m d.buf 0 b
    if deltaxcn < 0 then .error .eio else .ok deltaxcn

def decodePair (m : Mem) (attrEnd : Nat) (d : Decoder) : Except Failure Decoder :=
  let d := d.grow
  let head := (m d.buf).toNat
  (decodeLength m attrEnd d).bind fun length =>
    (decodeLcn m attrEnd d).bind fun lcn =>
      (d.put ⟨d.vcn, lcn.1, length⟩).map fun d =>
        { d.advance with
          vcn := signed 64 (d.vcn + length)
          lcn := lcn.2
          buf := d.buf + (head &&& 0xf) + (head >>> 4 &&& 0xf) + 1 }

/-- `while (buf < attr_end && *buf)`, in at most the given number of rounds. -/
def decodeLoop (m : Mem) (attrEnd : Nat) : Nat → Decoder → Except Failure Decoder
  | 0, _ => .error .fault
  | k + 1, d =>
    if d.buf < attrEnd ∧ m d.buf ≠ 0 then
      (decodePair m attrEnd d).bind (decodeLoop m attrEnd k)
    else .ok d

/-- Set up the terminating elements: the runlist. -/
def terminate (vol : Volume) (attr : AttrRecord) (d : Decoder) :
    Except Failure (List RunlistElement) :=
  let close (d : Decoder) (lcn : Int) : Except Failure (List RunlistElement) :=
    (d.put ⟨d.vcn, lcn, 0⟩).map fun d => (List.range (d.rlpos + 1)).map d.rl
  if attr.highestVcn ≠ 0 ∧ signed 64 (d.vcn - 1) ≠ attr.highestVcn then
    .error .eio
  else if attr.lowestVcn = 0 then
    let maxCluster := signed 64 (attr.allocatedSize + vol.clusterSize - 1)
      >>> vol.clusterSizeBits - 1
    if attr.highestVcn ≠ 0 then
      -- More extents to follow.
      if attr.highestVcn < maxCluster then
        let length := signed 64 (maxCluster - attr.highestVcn)
        (d.put ⟨d.vcn, lcnRlNotMapped, length⟩).bind fun d =>
          close { d.advance with vcn := signed 64 (d.vcn + length) } lcnEnoent
      else if maxCluster < attr.highestVcn then .error .eio
      else close d lcnEnoent
    else close d lcnEnoent
  else close d lcnRlNotMapped

/-- `ntfs_mapping_pairs_decompress` with no old runlist; `rl` is what is in
the memory that is allocated. No runlist is the old one. -/
def ntfsMappingPairsDecompress (vol : Volume) (attr : AttrRecord) (rl : Nat → RunlistElement) :
    Except Failure (Option (List RunlistElement)) :=
  let vcn := attr.lowestVcn
  let buf := attr.mappingPairsOffset
  if attr.length < buf then .error .eio
  -- If the mapping pairs array is valid but empty, nothing to do.
  else if vcn = 0 ∧ attr.bytes buf = 0 then .ok none
  else
    let d : Decoder := ⟨buf, vcn, 0, rl, 0, pageSize⟩
    -- Insert unmapped starting element if necessary.
    let start := if vcn ≠ 0 then
      (d.put ⟨0, lcnRlNotMapped, vcn⟩).map Decoder.advance else .ok d
    start.bind fun d =>
      (decodeLoop attr.bytes attr.length (attr.length + 1) d).bind fun d =>
        if attr.length ≤ d.buf then .error .eio
        else (terminate vol attr d).map some

end BoardStack.Ntfs
