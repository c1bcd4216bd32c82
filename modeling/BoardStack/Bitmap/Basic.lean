/-
Bitmaps as text: lib/bitmap.c.

A bitmap is an array of `unsigned long`s. The printers write through
`scnprintf` into memory that does not overlap the bitmap. `__bitmap_parse`
gets the bytes of its buffer, one of which may be unreadable if it lies in
user space; `bitmap_parselist` gets a C string. The size of a bitmap is
positive and fits an `int`; `int` arithmetic wraps. The search for a bit is
taken by what it returns, since every architecture has its own.
-/
import BoardStack.Vsprintf.Scnprintf

namespace BoardStack.Bitmap

open Base Vsprintf Function

def chunkSz : Nat := 32

-- == bitmaps

/-- `unsigned long *`. -/
abbrev Words (a : WordSize) : Type := Nat → BitVec a.bits

variable {a : WordSize}

def testBit (m : Words a) (i : Nat) : Bool := (m (i / a.bits)).getLsbD (i % a.bits)

def setBit (m : Words a) (i : Nat) : Words a :=
  update m (i / a.bits) (Base.setBit (i % a.bits) (m (i / a.bits)))

def findNextBit (m : Words a) (size offset : Nat) : Nat :=
  ((List.range' offset (size - offset)).find? (testBit m)).getD size

def bitsToLongs (a : WordSize) (bits : Nat) : Nat := (bits + a.bits - 1) / a.bits

def bitmapZero (m : Words a) (nbits : Nat) : Words a :=
  fun k => if k < bitsToLongs a nbits then 0 else m k

/-- `(1UL << left) - 1`. -/
def lowMask (a : WordSize) (left : Nat) : BitVec a.bits := (1#a.bits <<< left) - 1#a.bits

/-- What `__bitmap_shift_left` makes of word `k`. -/
def shiftedWord (m : Words a) (lim left off rem k : Nat) : BitVec a.bits :=
  let lower := if rem ≠ 0 ∧ 0 < k then m (k - 1) else 0
  let upper := if left ≠ 0 ∧ k = lim - 1 then m k &&& lowMask a left else m k
  let word := lower >>> (a.bits - rem) ||| upper <<< rem
  if left ≠ 0 ∧ k + off = lim - 1 then word &&& lowMask a left else word

/-- `for (k = lim - off - 1; k >= 0; --k)`, in place. -/
def shiftLoop (lim left off rem : Nat) : Nat → Words a → Words a
  | 0, m => m
  | k + 1, m =>
    shiftLoop lim left off rem k (update m (k + off) (shiftedWord m lim left off rem k))

/-- `__bitmap_shift_left(m, m, shift, bits)`. -/
def bitmapShiftLeft (m : Words a) (shift bits : Nat) : Words a :=
  let lim := bitsToLongs a bits
  let left := bits % a.bits
  let off := shift / a.bits
  let rem := shift % a.bits
  let m := shiftLoop lim left off rem (lim - off) m
  fun k => if k < off then 0 else m k

-- == hexadecimal

/-- `buf + len`. -/
def posAt (env : Env) (buf : Nat) (len : Int) : Nat := unsigned env.word.bits ((buf : Int) + len)

/-- `"%s%0*lx"`. -/
def hexFormat : Format := ⟨lit "%s%0*lx", by decide, by decide⟩

/-- `(maskp[word] >> bit) & chunkmask`. -/
def chunkValue (m : Words a) (i chunksz : Nat) : BitVec a.bits :=
  (m (i / a.bits) >>> (i % a.bits)) &&& BitVec.ofNat a.bits (2 ^ chunksz - 1)

/-- `len += scnprintf(buf+len, buflen-len, ..)` for chunk `k`. -/
def hexChunk (env : Env) (m : Words env.word) (buf buflen k chunksz : Nat)
    (sep : List UInt8) (len : Int) (mem : Nat → UInt8) :
    Option (Int × (Nat → UInt8)) :=
  (scnprintf env mem (posAt env buf len) (unsigned 32 ((buflen : Int) - len)) hexFormat
      [.str (.kernel sep), .int ((chunksz + 3) / 4 : Nat),
        .long (chunkValue m (chunkSz * k) chunksz).toNat]).map fun r =>
    (int (len + r.1), r.2)

/-- `","`. -/
def comma : List UInt8 := lit ","

/-- `for (; i >= 0; i -= CHUNKSZ)`, for `k` chunks. -/
def hexLoop (env : Env) (m : Words env.word) (buf buflen : Nat) :
    Nat → Nat → List UInt8 → Int → (Nat → UInt8) → Option (Int × (Nat → UInt8))
  | 0, _, _, len, mem => some (len, mem)
  | k + 1, chunksz, sep, len, mem =>
    (hexChunk env m buf buflen k chunksz sep len mem).bind fun r =>
      hexLoop env m buf buflen k chunkSz comma r.1 r.2

/-- `ALIGN(x, CHUNKSZ)`. -/
def align (x : Int) : Int := int (x + 31) / 32 * 32

def bitmapScnprintf (env : Env) (mem : Nat → UInt8) (buf buflen : Nat)
    (m : Words env.word) (nmaskbits : Nat) :
    Option (Int × (Nat → UInt8)) :=
  let chunksz := nmaskbits % chunkSz
  let chunksz := if chunksz = 0 then chunkSz else chunksz
  let i := int (align nmaskbits - chunkSz)
  hexLoop env m buf buflen (i / chunkSz + 1).toNat chunksz [] 0 mem

def isspace (c : UInt8) : Bool := (9 ≤ c && c ≤ 13) || c = 32 || c = 160

def toupper (c : UInt8) : UInt8 :=
  if (0x61 ≤ c && c ≤ 0x7a) || (0xdf ≤ c && c ≠ 0xf7) then c - 0x20 else c

def unhex (c : UInt8) : Nat :=
  if isdigit c then c.toNat - '0'.toNat
  else (toupper c).toNat - 'A'.toNat + 10

def fls (x : BitVec 32) : Nat := if x = 0 then 0 else Nat.log2 x.toNat + 1

/-- What the parsers refuse a text with; `hang` is no answer. -/
inductive Errno
  | inval
  | overflow
  | fault
  | range
  | hang
deriving DecidableEq, Repr

/-- What is left of the buffer after a chunk, the character that ended it,
and the chunk. -/
structure Chunk where
  buf : List (Option UInt8)
  c : UInt8
  totaldigits : Int
  ndigits : Int
  chunk : BitVec 32

/-- Get the next chunk of the bitmap: `while (buflen)`. -/
def chunkLoop : List (Option UInt8) → UInt8 → Int → Int → BitVec 32 → Except Errno Chunk
  | [], c, totaldigits, ndigits, chunk =>
    .ok ⟨[], c, totaldigits, ndigits, chunk⟩
  | none :: _, _, _, _, _ => .error .fault
  | some c :: buf, oldC, totaldigits, ndigits, chunk =>
    if isspace c then chunkLoop buf c totaldigits ndigits chunk
    else if totaldigits ≠ 0 ∧ c ≠ 0 ∧ isspace oldC then .error .inval
    else if c = 0 ∨ c = ','.toUInt8 then
      .ok ⟨buf, c, totaldigits, ndigits, chunk⟩
    else if !isxdigit c then .error .inval
    -- at least 4 free bits in the chunk
    else if chunk &&& ~~~((1#32 <<< (chunkSz - 4)) - 1#32) ≠ 0 then
      .error .overflow
    else
      chunkLoop buf c (int (totaldigits + 1)) (int (ndigits + 1))
        ((chunk <<< 4) ||| BitVec.ofNat 32 (unhex c))

/-- The variables of `__bitmap_parse`. -/
structure Parser (a : WordSize) where
  buf : List (Option UInt8)
  c : UInt8
  totaldigits : Int
  nchunks : Int
  nbits : Int
  maskp : Words a

/-- `*maskp |= chunk`. -/
def orChunk (m : Words a) (chunk : BitVec 32) : Words a :=
  update m 0 (m 0 ||| chunk.setWidth a.bits)

/-- A turn of `__bitmap_parse`, which skips leading chunks of zeros. -/
def parseBody (nmaskbits : Nat) (p : Parser a) : Except Errno (Parser a) :=
  match chunkLoop p.buf p.c p.totaldigits 0 0 with
  | .error err => .error err
  | .ok r =>
    let p := { p with buf := r.buf, c := r.c, totaldigits := r.totaldigits }
    if r.ndigits = 0 then .error .inval
    else if p.nchunks = 0 ∧ r.chunk = 0 then .ok p
    else
      let maskp := orChunk (bitmapShiftLeft p.maskp chunkSz nmaskbits) r.chunk
      let nchunks := int (p.nchunks + 1)
      let nbits := int (p.nbits + (if nchunks = 1 then fls r.chunk
        else chunkSz : Nat))
      if nmaskbits < nbits then .error .overflow
      else .ok { p with maskp, nchunks, nbits }

/-- `do .. while (buflen && c == ',')`. -/
def parseLoop (nmaskbits : Nat) : Nat → Parser a → Except Errno (Words a)
  | 0, _ => .error .hang
  | fuel + 1, p =>
    match parseBody nmaskbits p with
    | .error err => .error err
    | .ok p =>
      if p.buf ≠ [] ∧ p.c = ','.toUInt8 then parseLoop nmaskbits fuel p
      else .ok p.maskp

/-- `__bitmap_parse`: every turn but the last one reads a comma. -/
def bitmapParse (buf : List (Option UInt8)) (m : Words a) (nmaskbits : Nat) :
    Except Errno (Words a) :=
  parseLoop nmaskbits (buf.length + 1) ⟨buf, 0, 0, 0, 0, bitmapZero m nmaskbits⟩

-- == lists

/-- `","`, `"%d"` and `"%d-%d"`. -/
def commaFormat : Format := ⟨lit ",", by decide, by decide⟩
def numberFormat : Format := ⟨lit "%d", by decide, by decide⟩
def rangeFormat : Format := ⟨lit "%d-%d", by decide, by decide⟩

/-- `len += scnprintf(buf + len, buflen - len, ..)`. -/
def emit (env : Env) (buf : Nat) (buflen : Int) (fmt : Format)
    (args : List Arg) (len : Int) (mem : Nat → UInt8) :
    Option (Int × (Nat → UInt8)) :=
  (scnprintf env mem (posAt env buf len)
      (unsigned env.word.bits (int (buflen - len))) fmt args).map fun r =>
    (int (len + r.1), r.2)

def bscnlEmit (env : Env) (buf : Nat) (buflen rbot rtop len : Int)
    (mem : Nat → UInt8) : Option (Int × (Nat → UInt8)) :=
  (if len > 0 then emit env buf buflen commaFormat [] len mem
    else some (len, mem)).bind fun r =>
      if rbot = rtop then
        emit env buf buflen numberFormat [.int rbot] r.1 r.2
      else emit env buf buflen rangeFormat [.int rbot, .int rtop] r.1 r.2

/-- `while (cur < nmaskbits)`. -/
def listLoop (env : Env) (m : Words env.word) (nmaskbits buf : Nat)
    (buflen : Int) : Nat → Nat → Nat → Int → (Nat → UInt8) → Option (Int × (Nat → UInt8))
  | 0, _, _, len, mem => some (len, mem)
  | fuel + 1, cur, rbot, len, mem =>
    if cur < nmaskbits then
      let rtop := cur
      let cur := findNextBit m nmaskbits (cur + 1)
      if cur ≥ nmaskbits ∨ cur > rtop + 1 then
        (bscnlEmit env buf buflen rbot rtop len mem).bind fun r =>
          listLoop env m nmaskbits buf buflen fuel cur cur r.1 r.2
      else listLoop env m nmaskbits buf buflen fuel cur rbot len mem
    else some (len, mem)

/-- `bitmap_scnlistprintf`: `cur` grows in every turn. -/
def bitmapScnlistprintf (env : Env) (mem : Nat → UInt8) (buf buflen : Nat)
    (m : Words env.word) (nmaskbits : Nat) :
    Option (Int × (Nat → UInt8)) :=
  if buflen = 0 then some (0, mem)
  else
    let mem := update mem buf 0
    let cur := findNextBit m nmaskbits 0
    listLoop env m nmaskbits buf (int buflen) nmaskbits cur cur 0 mem

/-- `while (a <= b) set_bit(a++, maskp)`, for `n` bits. -/
def setBits (m : Words a) (first : Nat) : Nat → Words a
  | 0 => m
  | n + 1 => setBits (setBit m first) (first + 1) n

def rangeEnd (w : Nat) (first : Nat) (bp : List UInt8) : Except Errno (Nat × List UInt8) :=
  if charAt bp 0 = '-'.toUInt8 then
    let bp := bp.drop 1
    if !isdigit (charAt bp 0) then .error .inval
    else
      let r := simpleStrtoul w bp 10
      .ok (r.1 % 2 ^ 32, r.2)
  else .ok (first, bp)

/-- A turn of `bitmap_parselist`: a number or a range. -/
def parselistBody (nmaskbits : Nat) (bp : List UInt8) (m : Words a) :
    Except Errno (List UInt8 × Words a) :=
  if !isdigit (charAt bp 0) then .error .inval
  else
    let r := simpleStrtoul a.bits bp 10
    let first := r.1 % 2 ^ 32
    match rangeEnd a.bits first r.2 with
    | .error err => .error err
    | .ok (last, bp) =>
      if !(first ≤ last) then .error .inval
      else if last ≥ nmaskbits then .error .range
      else
        .ok (if charAt bp 0 = ','.toUInt8 then bp.drop 1 else bp,
          setBits m first (last + 1 - first))

/-- `do .. while (*bp != '\0' && *bp != '\n')`. -/
def parselistLoop (nmaskbits : Nat) : Nat → List UInt8 → Words a → Except Errno (Words a)
  | 0, _, _ => .error .hang
  | fuel + 1, bp, m =>
    match parselistBody nmaskbits bp m with
    | .error err => .error err
    | .ok (bp, m) =>
      if charAt bp 0 ≠ 0 ∧ charAt bp 0 ≠ '\n'.toUInt8 then
        parselistLoop nmaskbits fuel bp m
      else .ok m

/-- `bitmap_parselist`: every turn reads a digit. -/
def bitmapParselist (bp : List UInt8) (m : Words a) (nmaskbits : Nat) : Except Errno (Words a) :=
  parselistLoop nmaskbits (bp.length + 1) bp (bitmapZero m nmaskbits)

end BoardStack.Bitmap
