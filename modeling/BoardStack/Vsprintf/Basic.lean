/-
The formatted printer and the number parser: lib/vsprintf.c.

Every character goes out by `if (buf < end) *buf = c; ++buf`, here `Sink.put`;
`buf` is an address of the machine's word and wraps. C strings are lists
without their NUL, so reading past the list reads the NUL. `int` arithmetic
wraps at 32 bits (`-fwrapv`); a loop that counts an `int` down gets more
turns than an `int` has non-negative values.

The strings and objects the arguments point to are values: they do not
overlap the output buffer. `Env` holds what the printer reads outside its
arguments. An argument that is not of the type its conversion asks for is
undefined behaviour, `none`.
-/
import BoardStack.Base.Bits
import BoardStack.Base.CInt
import BoardStack.Base.Sink

namespace BoardStack.Vsprintf

open Base List Nat

/-- A value stored in an `int`. -/
def int (x : Int) : Int := signed 32 x

-- == character classes (ctype)

def isdigit (c : UInt8) : Bool := 0x30 ≤ c && c ≤ 0x39

def isxdigit (c : UInt8) : Bool := isdigit c || (0x41 ≤ c && c ≤ 0x46) || (0x61 ≤ c && c ≤ 0x66)

/-- `isalnum`: the letters of Latin-1 count, without × and ÷. -/
def isalnum (c : UInt8) : Bool :=
  isdigit c || (0x41 ≤ c && c ≤ 0x5a) || (0x61 ≤ c && c ≤ 0x7a)
    || (0xc0 ≤ c && c ≠ 0xd7 && c ≠ 0xf7)

def toLower (c : UInt8) : UInt8 := c ||| 0x20

/-- `cp[i]` of a C string. -/
def charAt (s : List UInt8) (i : Nat) : UInt8 := s.getD i 0

-- == parsing a number

def simpleGuessBase (cp : List UInt8) : Nat :=
  if charAt cp 0 = '0'.toUInt8 then
    if toLower (charAt cp 1) = 'x'.toUInt8 && isxdigit (charAt cp 2) then 16
    else 8
  else 10

/-- `value` in the loop of `simple_strtoull`: an `unsigned int` computed from
a hexadecimal digit. -/
def digitValue (c : UInt8) : Nat :=
  if isdigit c then c.toNat - '0'.toNat
  else (toLower c).toNat - 'a'.toNat + 10

/-- The loop of `simple_strtoull`: the result and what is left of the
string. -/
def strtoullLoop (base : Nat) : List UInt8 → Nat → Nat × List UInt8
  | [], result => (result, [])
  | c :: cp, result =>
    if isxdigit c then
      if base ≤ digitValue c then (result, c :: cp)
      else strtoullLoop base cp ((result * base + digitValue c) % 2 ^ 64)
    else (result, c :: cp)

/-- `simple_strtoull`: the value and `*endp`. -/
def simpleStrtoull (cp : List UInt8) (base : Nat) : Nat × List UInt8 :=
  let base := if base = 0 then simpleGuessBase cp else base
  if base = 16 ∧ charAt cp 0 = '0'.toUInt8 ∧ toLower (charAt cp 1) = 'x'.toUInt8 then
    strtoullLoop base (cp.drop 2) 0
  else strtoullLoop base cp 0

-- == the format's fields

/-- The bits of `flags`. -/
structure Flags where
  zeropad : Bool := false
  sign : Bool := false
  plus : Bool := false
  space : Bool := false
  left : Bool := false
  small : Bool := false
  special : Bool := false
deriving DecidableEq, Repr

inductive FormatType
  | none
  | width
  | precision
  | char
  | str
  | ptr
  | percentChar
  | invalid
  | longLong
  | ulong
  | long
  | ushort
  | short
  | uint
  | int
  | nrchars
  | sizeT
  | ptrdiff
deriving DecidableEq, Repr

/-- `struct printf_spec`. A `qualifier` is a character, or `none` for −1. -/
structure PrintfSpec where
  type : FormatType := .none
  flags : Flags := {}
  fieldWidth : Int := 0
  base : Nat := 0
  precision : Int := 0
  qualifier : Option UInt8 := some 0
deriving DecidableEq, Repr

-- == decimal digits

/-- `put_dec_trunc`: the digits it stores, least significant first. -/
def putDecTrunc (q : Nat) : List UInt8 :=
  let d1 := (q >>> 4) &&& 0xf
  let d2 := (q >>> 8) &&& 0xf
  let d3 := q >>> 12
  let d0 := 6 * (d3 + d2 + d1) + (q &&& 0xf)
  let q := (d0 * 0xcd) >>> 11
  let d0 := d0 - 10 * q
  let d1 := q + 9 * d3 + 5 * d2 + d1
  UInt8.ofNat (d0 + '0'.toNat) ::
    if d1 ≠ 0 then
      let q := (d1 * 0xcd) >>> 11
      let d1 := d1 - 10 * q
      let d2 := q + 2 * d2
      UInt8.ofNat (d1 + '0'.toNat) ::
        if d2 ≠ 0 ∨ d3 ≠ 0 then
          let q := (d2 * 0xd) >>> 7
          let d2 := d2 - 10 * q
          let d3 := q + 4 * d3
          UInt8.ofNat (d2 + '0'.toNat) ::
            if d3 ≠ 0 then
              let q := (d3 * 0xcd) >>> 11
              let d3 := d3 - 10 * q
              UInt8.ofNat (d3 + '0'.toNat) ::
                if q ≠ 0 then [UInt8.ofNat (q + '0'.toNat)] else []
            else []
        else []
    else []

/-- `put_dec_full`: the same without the tests, always five digits. -/
def putDecFull (q : Nat) : List UInt8 :=
  let d1 := (q >>> 4) &&& 0xf
  let d2 := (q >>> 8) &&& 0xf
  let d3 := q >>> 12
  let d0 := 6 * (d3 + d2 + d1) + (q &&& 0xf)
  let q := (d0 * 0xcd) >>> 11
  let d0 := d0 - 10 * q
  let d1 := q + 9 * d3 + 5 * d2 + d1
  let q := (d1 * 0xcd) >>> 11
  let d1 := d1 - 10 * q
  let d2 := q + 2 * d2
  let q := (d2 * 0xd) >>> 7
  let d2 := d2 - 10 * q
  let d3 := q + 4 * d3
  let q := (d3 * 0xcd) >>> 11
  let d3 := d3 - 10 * q
  [d0, d1, d2, d3, q].map fun d => UInt8.ofNat (d + '0'.toNat)

/-- The loop of `put_dec`, with a bound on its turns. -/
def putDecLoop : Nat → Nat → List UInt8
  | 0, _ => []
  | turns + 1, num =>
    if num < 100000 then putDecTrunc num
    else putDecFull (num % 100000) ++ putDecLoop turns (num / 100000)

/-- `put_dec` of an `unsigned long long`: four divisions by 100000 are
enough. -/
def putDec (num : Nat) : List UInt8 := putDecLoop 5 num

-- == number

/-- `digits` in `number`: "0123456789ABCDEF". -/
def digits : List UInt8 :=
  [0x30, 0x31, 0x32, 0x33, 0x34, 0x35, 0x36, 0x37, 0x38, 0x39, 0x41, 0x42, 0x43, 0x44, 0x45, 0x46]

/-- The `do` loop of `number` for a base that is a power of two, with a bound
on its turns: `tmp`, least significant digit first. -/
def shiftLoop (mask shift : Nat) (locase : UInt8) : Nat → Nat → List UInt8
  | 0, _ => []
  | turns + 1, num =>
    (charAt digits ((num % 256) &&& mask) ||| locase) ::
      if num >>> shift = 0 then []
      else shiftLoop mask shift locase turns (num >>> shift)

/-- `tmp[0 .. i)` of `number`; the array has room for 66 digits. -/
def numberTmp (base : Nat) (locase : UInt8) (num : Nat) : List UInt8 :=
  if num = 0 then ['0'.toUInt8]
  else if base ≠ 10 then
    shiftLoop (base - 1) (if base = 16 then 4 else 3) locase 66 num
  else putDec num

/-- The turns given to a loop over an `int`. -/
def maxTurns : Nat := 2147483649

/-- `while (--n >= k)`, or `while (k <= --n)`, writing `c`. -/
def padLoop (w : Nat) (c : UInt8) (k : Int) : Nat → Int → Sink UInt8 → Int × Sink UInt8
  | 0, n, o => (n, o)
  | turns + 1, n, o =>
    if k ≤ int (n - 1) then padLoop w c k turns (int (n - 1)) (o.put w c)
    else (int (n - 1), o)

/-- `padLoop` with its turns. -/
def pad (w : Nat) (c : UInt8) (k n : Int) (o : Sink UInt8) : Int × Sink UInt8 :=
  padLoop w c k maxTurns n o

/-- `sign` in `number`, with `num` without its sign. -/
def numberSign (flags : Flags) (num : Nat) : List UInt8 × Nat :=
  if flags.sign then
    if signed 64 num < 0 then
      (['-'.toUInt8], unsigned 64 (-(signed 64 num)))
    else if flags.plus then (['+'.toUInt8], num)
    else if flags.space then ([' '.toUInt8], num)
    else ([], num)
  else ([], num)

/-- `locase` in `number`. -/
def locase (flags : Flags) : UInt8 := if flags.small then 0x20 else 0

/-- The "0x" or "0" before the digits, if `need_pfx`. -/
def numberPrefix (spec : PrintfSpec) : List UInt8 :=
  if spec.flags.special && spec.base ≠ 10 then
    if spec.base = 16 then
      ['0'.toUInt8, 'X'.toUInt8 ||| locase spec.flags]
    else ['0'.toUInt8]
  else []

/-- `number`. Each character of the sign and of the prefix takes one from the
field width. -/
def number (w : Nat) (o : Sink UInt8) (num : Nat) (spec : PrintfSpec) : Sink UInt8 :=
  let left := spec.flags.left
  let zeropad := spec.flags.zeropad && !left
  let sign := numberSign spec.flags num
  let pfx := numberPrefix spec
  let fieldWidth := int (spec.fieldWidth - sign.1.length - pfx.length)
  let tmp := numberTmp spec.base (locase spec.flags) sign.2
  let i : Int := tmp.length
  let precision := if spec.precision < i then i else spec.precision
  let fieldWidth := int (fieldWidth - precision)
  -- leading space padding
  let r := if zeropad || left then (fieldWidth, o)
    else pad w ' '.toUInt8 0 fieldWidth o
  let o := (r.2.emit w sign.1).emit w pfx
  -- zero or space padding
  let r := if left then (r.1, o)
    else pad w (if zeropad then '0'.toUInt8 else ' '.toUInt8) 0 r.1 o
  let o := (pad w '0'.toUInt8 i precision r.2).2
  -- tmp[i - 1] .. tmp[0]
  let o := o.emit w tmp.reverse
  -- trailing space padding
  (pad w ' '.toUInt8 0 r.1 o).2

-- == string

/-- A string argument: where it is, and its characters up to the NUL. -/
structure Str where
  addr : Nat
  chars : List UInt8
deriving DecidableEq, Repr

def pageSize : Nat := 4096

/-- A string literal or an array on the stack, above the first page. -/
def Str.kernel (chars : List UInt8) : Str := ⟨pageSize, chars⟩

/-- The bytes of a literal. -/
def lit (s : String) : List UInt8 := s.toList.map Char.toUInt8

/-- `while (len < n--)`, writing spaces. -/
def spaceLoop (w : Nat) (len : Int) : Nat → Int → Sink UInt8 → Int × Sink UInt8
  | 0, n, o => (n, o)
  | turns + 1, n, o =>
    if len < n then
      spaceLoop w len turns (int (n - 1)) (o.put w ' '.toUInt8)
    else (int (n - 1), o)

/-- `strnlen` with an `int` limit: a negative one is a huge `size_t`. -/
def strnlen (s : List UInt8) (limit : Int) : Nat :=
  if limit < 0 then s.length else min s.length limit.toNat

def string (w : Nat) (o : Sink UInt8) (s : Str) (spec : PrintfSpec) : Sink UInt8 :=
  let chars := if s.addr < pageSize then lit "<NULL>" else s.chars
  let len := int (strnlen chars spec.precision)
  let r := if spec.flags.left then (spec.fieldWidth, o)
    else spaceLoop w len maxTurns spec.fieldWidth o
  let o := r.2.emit w (chars.take len.toNat)
  (spaceLoop w len maxTurns r.1 o).2

-- == pointer

/-- `struct resource`, what `resource_string` reads of it. -/
structure Resource where
  start : Nat
  «end» : Nat
  io : Bool
  mem : Bool

/-- The machine and the memory the printer reads: `CONFIG_KALLSYMS`'s
`sprint_symbol`, `dereference_function_descriptor`, the bytes and the
resources pointers lead to, and `sizeof(resource_size_t)`. -/
structure Env where
  word : WordSize
  sprintSymbol : Option (Nat → List UInt8)
  dereferenceFunctionDescriptor : Nat → Nat
  byteAt : Nat → UInt8
  resourceAt : Nat → Resource
  resourceSizeT : Nat

def symbolString (env : Env) (o : Sink UInt8) (value : Nat) (spec : PrintfSpec) : Sink UInt8 :=
  match env.sprintSymbol with
  | some sprintSymbol =>
    string env.word.bits o (.kernel (sprintSymbol value)) spec
  | none =>
    number env.word.bits o value { spec with
        fieldWidth := env.word.bits / 4
        flags := { spec.flags with
          special := true, small := true, zeropad := true }
        base := 16 }

/-- The characters of an array up to its first NUL. -/
def cString (mem : Nat → UInt8) (size : Nat) : List UInt8 :=
  ((List.range size).map mem).takeWhile (· ≠ 0)

/-- `*p++ = c` without a test. -/
def poke (w : Nat) (o : Sink UInt8) (c : UInt8) : Sink UInt8 :=
  { o with mem := Function.update o.mem o.pos c
           pos := (o.pos + 1) % 2 ^ w
           log := o.log ++ [c] }

/-- `sym` in `resource_string`: the array on the stack as a sink of its
own. -/
def resourceSym (env : Env) (res : Resource) : List UInt8 :=
  let w := env.word.bits
  let size : Int := if res.io then 4 else if res.mem then 8 else -1
  let numSpec : PrintfSpec :=
    { base := 16, precision := -1, fieldWidth := size,
      flags := { special := true, small := true, zeropad := true } }
  let p : Sink UInt8 := ⟨fun _ => 0, 0, 4 * env.resourceSizeT + 8, []⟩
  let p := poke w p '['.toUInt8
  let p := number w p res.start numSpec
  let p := poke w p '-'.toUInt8
  let p := number w p res.end numSpec
  let p := poke w p ']'.toUInt8
  let p := poke w p 0
  cString p.mem p.limit

/-- `hex_asc_hi`, `hex_asc_lo` as `pack_hex_byte` writes them. -/
def packHexByte (byte : UInt8) : List UInt8 :=
  [charAt digits (byte.toNat / 16) ||| 0x20, charAt digits (byte.toNat % 16) ||| 0x20]

/-- `mac_addr` in `mac_address_string`. -/
def macAddr (addr : Nat → UInt8) (special : Bool) : List UInt8 :=
  (List.range 6).flatMap fun i =>
    packHexByte (addr i) ++
      if !special && i ≠ 5 then [':'.toUInt8] else []

/-- `ip6_addr` in `ip6_addr_string`. -/
def ip6Addr (addr : Nat → UInt8) (special : Bool) : List UInt8 :=
  (List.range 8).flatMap fun i =>
    packHexByte (addr (2 * i)) ++ packHexByte (addr (2 * i + 1)) ++
      if !special && i ≠ 7 then [':'.toUInt8] else []

/-- `ip4_addr` in `ip4_addr_string`. -/
def ip4Addr (addr : Nat → UInt8) : List UInt8 :=
  (List.range 4).flatMap fun i =>
    (putDecTrunc (addr i).toNat).reverse ++
      if i ≠ 3 then ['.'.toUInt8] else []

/-- The end of `pointer`: the address as a number. -/
def pointerNumber (env : Env) (o : Sink UInt8) (ptr : Nat) (spec : PrintfSpec) : Sink UInt8 :=
  let wide := spec.fieldWidth = -1
  number env.word.bits o ptr { spec with
      fieldWidth := if wide then env.word.bits / 4 else spec.fieldWidth
      flags := { spec.flags with
        small := true, zeropad := spec.flags.zeropad || wide }
      base := 16 }

/-- `pointer`; `fmt` is what follows the `p`. `mac_address_string` and the
address functions clear `SPECIAL`, which `string` does not read. -/
def pointer (env : Env) (fmt : List UInt8) (o : Sink UInt8) (ptr : Nat)
    (spec : PrintfSpec) : Sink UInt8 :=
  let w := env.word.bits
  let c := charAt fmt 0
  let special := spec.flags.special
  let clear (b : Bool) : PrintfSpec := { spec with flags := { spec.flags with special := b } }
  if ptr = 0 then string w o (.kernel (lit "(null)")) spec
  else if c = 'F'.toUInt8 then
    symbolString env o (env.dereferenceFunctionDescriptor ptr) spec
  else if c = 'S'.toUInt8 then symbolString env o ptr spec
  else if c = 'R'.toUInt8 then
    string w o (.kernel (resourceSym env (env.resourceAt ptr))) spec
  else if c = 'm'.toUInt8 ∨ c = 'M'.toUInt8 then
    let mac := macAddr (fun i => env.byteAt (ptr + i)) (special || c = 'm'.toUInt8)
    string w o (.kernel mac) (clear false)
  else if c = 'i'.toUInt8 ∨ c = 'I'.toUInt8 then
    if charAt fmt 1 = '6'.toUInt8 then
      let ip6 := ip6Addr (fun i => env.byteAt (ptr + i)) (special || c = 'i'.toUInt8)
      string w o (.kernel ip6) (clear false)
    else if charAt fmt 1 = '4'.toUInt8 then
      let ip4 := ip4Addr fun i => env.byteAt (ptr + i)
      string w o (.kernel ip4) (clear false)
    else pointerNumber env o ptr (clear false)
  else pointerNumber env o ptr spec

-- == format_decode

/-- `skip_atoi`: the value and the rest. -/
def skipAtoi : List UInt8 → Int → Int × List UInt8
  | [], i => (i, [])
  | c :: cs, i =>
    if isdigit c then skipAtoi cs (int (i * 10 + c.toNat - '0'.toNat))
    else (i, c :: cs)

/-- The flags after the `%`. -/
def decodeFlags : List UInt8 → Flags → Flags × List UInt8
  | [], f => (f, [])
  | c :: cs, f =>
    if c = '-'.toUInt8 then decodeFlags cs { f with left := true }
    else if c = '+'.toUInt8 then decodeFlags cs { f with plus := true }
    else if c = ' '.toUInt8 then decodeFlags cs { f with space := true }
    else if c = '#'.toUInt8 then decodeFlags cs { f with special := true }
    else if c = '0'.toUInt8 then decodeFlags cs { f with zeropad := true }
    else (f, c :: cs)

/-- The type of an integer conversion. -/
def integerType (qualifier : Option UInt8) (sign : Bool) : FormatType :=
  if qualifier = some 'L'.toUInt8 then .longLong
  else if qualifier = some 'l'.toUInt8 then if sign then .long else .ulong
  else if qualifier = some 'Z'.toUInt8 ∨ qualifier = some 'z'.toUInt8 then
    .sizeT
  else if qualifier = some 't'.toUInt8 then .ptrdiff
  else if qualifier = some 'h'.toUInt8 then if sign then .short else .ushort
  else if sign then .int else .uint

/-- The conversion character: the spec and where to go on. -/
def decodeConversion (spec : PrintfSpec) (fmt : List UInt8) : PrintfSpec × List UInt8 :=
  let spec := { spec with base := 10 }
  let q := spec.qualifier
  match fmt with
  | [] => ({ spec with type := .invalid }, [])
  | c :: cs =>
    if c = 'c'.toUInt8 then ({ spec with type := .char }, cs)
    else if c = 's'.toUInt8 then ({ spec with type := .str }, cs)
    else if c = 'p'.toUInt8 then ({ spec with type := .ptr }, c :: cs)
    else if c = 'n'.toUInt8 then ({ spec with type := .nrchars }, cs)
    else if c = '%'.toUInt8 then ({ spec with type := .percentChar }, cs)
    else if c = 'o'.toUInt8 then
      ({ spec with base := 8, type := integerType q spec.flags.sign }, cs)
    else if c = 'x'.toUInt8 then
      ({ spec with base := 16, type := integerType q spec.flags.sign,
                   flags := { spec.flags with small := true } }, cs)
    else if c = 'X'.toUInt8 then
      ({ spec with base := 16, type := integerType q spec.flags.sign }, cs)
    else if c = 'd'.toUInt8 ∨ c = 'i'.toUInt8 then
      ({ spec with type := integerType q true, flags := { spec.flags with sign := true } }, cs)
    else if c = 'u'.toUInt8 then
      ({ spec with type := integerType q spec.flags.sign }, cs)
    else ({ spec with type := .invalid }, c :: cs)

/-- The characters that may qualify a conversion. -/
def isQualifier (c : UInt8) : Bool :=
  c = 'h'.toUInt8 || c = 'l'.toUInt8 || c = 'L'.toUInt8
    || c = 'Z'.toUInt8 || c = 'z'.toUInt8 || c = 't'.toUInt8

/-- From the label `qualifier` on. -/
def decodeQualifier (spec : PrintfSpec) (fmt : List UInt8) : PrintfSpec × List UInt8 :=
  match fmt with
  | [] => decodeConversion { spec with qualifier := none } []
  | c :: cs =>
    if isQualifier c then
      if c = 'l'.toUInt8 ∧ charAt cs 0 = 'l'.toUInt8 then
        decodeConversion { spec with qualifier := some 'L'.toUInt8 } (cs.drop 1)
      else decodeConversion { spec with qualifier := some c } cs
    else decodeConversion { spec with qualifier := none } (c :: cs)

/-- From the label `precision` on. -/
def decodePrecision (spec : PrintfSpec) (fmt : List UInt8) : PrintfSpec × List UInt8 :=
  let spec := { spec with precision := -1 }
  if charAt fmt 0 = '.'.toUInt8 then
    let fmt := fmt.drop 1
    if isdigit (charAt fmt 0) then
      let r := skipAtoi fmt 0
      decodeQualifier { spec with precision := if r.1 < 0 then 0 else r.1 } r.2
    else if charAt fmt 0 = '*'.toUInt8 then
      ({ spec with type := .precision }, fmt.drop 1)
    else decodeQualifier spec fmt
  else decodeQualifier spec fmt

/-- The field width, after the flags. -/
def decodeWidth (spec : PrintfSpec) (fmt : List UInt8) : PrintfSpec × List UInt8 :=
  let spec := { spec with fieldWidth := -1 }
  if isdigit (charAt fmt 0) then
    let r := skipAtoi fmt 0
    decodePrecision { spec with fieldWidth := r.1 } r.2
  else if charAt fmt 0 = '*'.toUInt8 then
    ({ spec with type := .width }, fmt.drop 1)
  else decodePrecision spec fmt

/-- `format_decode`: the spec, and `fmt` moved on by the returned count. -/
def formatDecode (fmt : List UInt8) (spec : PrintfSpec) : PrintfSpec × List UInt8 :=
  match spec.type with
  | .width =>
    let spec := if spec.fieldWidth < 0 then
        { spec with fieldWidth := int (-spec.fieldWidth)
                    flags := { spec.flags with left := true } }
      else spec
    decodePrecision { spec with type := .none } fmt
  | .precision =>
    let precision := if spec.precision < 0 then 0 else spec.precision
    decodeQualifier { spec with precision, type := .none } fmt
  | _ =>
    let spec := { spec with type := .none }
    if charAt fmt 0 = '%'.toUInt8 then
      let r := decodeFlags (fmt.drop 1) {}
      decodeWidth { spec with flags := r.1 } r.2
    else (spec, fmt.dropWhile (· ≠ '%'.toUInt8))

-- == vsnprintf

/-- An argument, by its type after the default promotions. A pointer for `%n`
is only a place to store to. -/
inductive Arg
  | int (v : Int)
  | long (v : Int)
  | longLong (v : Int)
  | sizeT (v : Int)
  | ptrdiff (v : Int)
  | str (s : Str)
  | ptr (p : Nat)
  | nrchars (p : Nat)

/-- The format and the arguments not yet read, with the spec between two
calls of `format_decode`. -/
structure Cursor where
  fmt : List UInt8
  spec : PrintfSpec
  args : List Arg

/-- What is written: the characters, and the counts stored by `%n`. -/
structure Output where
  sink : Sink UInt8
  stores : List (Nat × Int)

/-- `num` of an integer conversion, an `unsigned long long`. -/
def integerArg (env : Env) (type : FormatType) (arg : Arg) : Option Nat :=
  match type, arg with
  | .longLong, .longLong v => some (unsigned 64 v)
  | .ulong, .long v => some (unsigned env.word.bits v)
  | .long, .long v => some (unsigned 64 (signed env.word.bits v))
  | .sizeT, .sizeT v => some (unsigned env.word.bits v)
  | .ptrdiff, .ptrdiff v => some (unsigned 64 (signed env.word.bits v))
  | .ushort, .int v => some (unsigned 16 v)
  | .short, .int v => some (unsigned 64 (signed 16 v))
  | .int, .int v => some (unsigned 64 (signed 32 v))
  | .uint, .int v => some (unsigned 32 v)
  | _, _ => none

/-- The literal text before the next `%`: `memcpy` of what fits. -/
def copyLiteral (w : Nat) (o : Sink UInt8) (text : List UInt8) : Sink UInt8 where
  mem a :=
    if o.pos ≤ a ∧ a < o.limit then (text[a - o.pos]?).getD (o.mem a)
    else o.mem a
  pos := (o.pos + text.length) % 2 ^ w
  limit := o.limit
  log := o.log ++ text

/-- `FORMAT_TYPE_CHAR`. -/
def charConv (w : Nat) (o : Sink UInt8) (c : Int) (spec : PrintfSpec) : Sink UInt8 :=
  let r := if spec.flags.left then (spec.fieldWidth, o)
    else pad w ' '.toUInt8 1 spec.fieldWidth o
  let o := r.2.put w (UInt8.ofNat (unsigned 8 c))
  (pad w ' '.toUInt8 1 r.1 o).2

/-- `*ip = (str - buf)`, as the type `ip` points to: `long`, `size_t` or
`int`. -/
def nrcharsValue (env : Env) (qualifier : Option UInt8) (str buf : Nat) :
    Int :=
  let diff : Int := (str : Int) - (buf : Int)
  if qualifier = some 'l'.toUInt8 then signed env.word.bits diff
  else if qualifier = some 'Z'.toUInt8 ∨ qualifier = some 'z'.toUInt8 then
    unsigned env.word.bits diff
  else int (signed env.word.bits diff)

/-- One turn of the loop of `vsnprintf`. -/
def convert (env : Env) (buf : Nat) (cur : Cursor) (out : Output) : Option (Cursor × Output) :=
  let w := env.word.bits
  let o := out.sink
  let d := formatDecode cur.fmt cur.spec
  let spec := d.1
  let fmt := d.2
  match spec.type, cur.args with
  | .none, args =>
    let text := cur.fmt.take (cur.fmt.length - fmt.length)
    some (⟨fmt, spec, args⟩, { out with sink := copyLiteral w o text })
  | .width, .int v :: args =>
    some (⟨fmt, { spec with fieldWidth := int v }, args⟩, out)
  | .precision, .int v :: args =>
    some (⟨fmt, { spec with precision := int v }, args⟩, out)
  | .char, .int v :: args =>
    some (⟨fmt, spec, args⟩, { out with sink := charConv w o v spec })
  | .str, .str s :: args =>
    some (⟨fmt, spec, args⟩, { out with sink := string w o s spec })
  | .ptr, .ptr p :: args =>
    some (⟨fmt.dropWhile isalnum, spec, args⟩,
      { out with sink := pointer env (fmt.drop 1) o p spec })
  | .percentChar, args =>
    some (⟨fmt, spec, args⟩, { out with sink := o.put w '%'.toUInt8 })
  | .invalid, args =>
    some (⟨fmt, spec, args⟩, { out with sink := o.put w '%'.toUInt8 })
  | .nrchars, .nrchars p :: args =>
    some (⟨fmt, spec, args⟩, { out with stores :=
          out.stores ++ [(p, nrcharsValue env spec.qualifier o.pos buf)] })
  | type, arg :: args =>
    match integerArg env type arg with
    | some num =>
      some (⟨fmt, spec, args⟩, { out with sink := number w o num spec })
    | none => none
  | _, [] => none

-- == the loop terminates

/-- Whether the next call of `format_decode` goes on inside a conversion. -/
def pending (type : FormatType) : Nat :=
  if type = .width ∨ type = .precision then 1 else 0

/-- What the loop counts down: a turn that reads nothing leaves a conversion
that was pending. -/
def Cursor.measure (cur : Cursor) : Nat := 2 * cur.fmt.length + pending cur.spec.type

/-- A decoded conversion that was read from `n` characters. -/
structure Decoded (n : Nat) (r : PrintfSpec × List UInt8) : Prop where
  le : r.2.length ≤ n
  star : pending r.1.type = 1 → r.2.length < n

variable {r : PrintfSpec × List UInt8}

lemma Decoded.mono {n m : Nat} (h : Decoded n r) (hle : n ≤ m) : Decoded m r where
  le := h.le.trans hle
  star hp := (h.star hp).trans_le hle

lemma Decoded.plain {n : Nat} (hle : r.2.length ≤ n) (h : pending r.1.type = 0) : Decoded n r where
  le := hle
  star hp := by rw [h] at hp; cases hp

lemma Decoded.measure_le {n : Nat}
    (h : Decoded n r) : 2 * r.2.length + pending r.1.type ≤ 2 * n := by
  have hle := h.le
  have hstar := h.star
  have hone : pending r.1.type ≤ 1 := by
    unfold pending
    split <;> omega
  omega

lemma pending_integerType (q : Option UInt8) (sign : Bool) : pending (integerType q sign) = 0 := by
  unfold integerType
  repeat' split
  all_goals rfl

lemma skipAtoi_length (fmt : List UInt8) (i : Int) : (skipAtoi fmt i).2.length ≤ fmt.length := by
  induction fmt generalizing i with
  | nil => exact le_rfl
  | cons c cs ih =>
    unfold skipAtoi
    split
    · exact (ih _).trans (le_succ _)
    · exact le_rfl

lemma decodeFlags_length (fmt : List UInt8) (f : Flags) :
    (decodeFlags fmt f).2.length ≤ fmt.length := by
  induction fmt generalizing f with
  | nil => exact le_rfl
  | cons c cs ih =>
    unfold decodeFlags
    repeat' split
    all_goals first
      | exact (ih _).trans (le_succ _)
      | exact le_rfl

variable (spec : PrintfSpec)

lemma decodeConversion_decoded (fmt : List UInt8) :
    Decoded fmt.length (decodeConversion spec fmt) := by
  unfold decodeConversion
  cases fmt with
  | nil => exact .plain le_rfl rfl
  | cons c cs =>
    have hle : cs.length ≤ (c :: cs).length := le_succ _
    dsimp only
    split_ifs
    all_goals first
      | exact .plain hle rfl
      | exact .plain le_rfl rfl
      | exact .plain hle (pending_integerType _ _)

lemma decodeQualifier_decoded (fmt : List UInt8) :
    Decoded fmt.length (decodeQualifier spec fmt) := by
  unfold decodeQualifier
  cases fmt with
  | nil => exact decodeConversion_decoded _ _
  | cons c cs =>
    dsimp only
    split_ifs
    · refine (decodeConversion_decoded _ _).mono ?_
      rw [length_drop, length_cons]
      omega
    · exact (decodeConversion_decoded _ _).mono (le_succ _)
    · exact decodeConversion_decoded _ _

variable {fmt : List UInt8}

lemma length_drop_one {c : UInt8} (h : charAt fmt 0 = c) (hc : c ≠ 0) :
    (fmt.drop 1).length + 1 = fmt.length := by
  cases fmt with
  | nil => exact absurd h.symm hc
  | cons d ds => rfl

lemma decodePrecision_decoded (fmt : List UInt8) :
    Decoded fmt.length (decodePrecision spec fmt) := by
  unfold decodePrecision
  dsimp only
  split
  next hdot =>
    have hdrop := length_drop_one hdot (by decide)
    split
    · refine (decodeQualifier_decoded _ _).mono ?_
      have := skipAtoi_length (fmt.drop 1) 0
      omega
    split
    next hstar =>
      have hdrop' := length_drop_one hstar (by decide)
      exact ⟨by dsimp only; omega, fun _ => by dsimp only; omega⟩
    next => exact (decodeQualifier_decoded _ _).mono (by omega)
  next => exact decodeQualifier_decoded _ _

lemma decodeWidth_decoded (fmt : List UInt8) : Decoded fmt.length (decodeWidth spec fmt) := by
  unfold decodeWidth
  split_ifs with hdigit hstar
  · exact (decodePrecision_decoded _ _).mono (skipAtoi_length _ _)
  · have hdrop := length_drop_one hstar (by decide)
    exact ⟨by dsimp only; omega, fun _ => by dsimp only; omega⟩
  · exact decodePrecision_decoded _ _

lemma formatDecode_measure (hne : fmt ≠ []) :
    2 * (formatDecode fmt spec).2.length + pending (formatDecode fmt spec).1.type
      < 2 * fmt.length + pending spec.type := by
  unfold formatDecode
  split
  next htype =>
    rw [htype]
    exact lt_succ_of_le (decodePrecision_decoded _ _).measure_le
  next htype =>
    rw [htype]
    exact lt_succ_of_le (decodeQualifier_decoded _ _).measure_le
  next =>
    dsimp only
    split
    next hpercent =>
      have hdrop := length_drop_one hpercent (by decide)
      have hflags := decodeFlags_length (fmt.drop 1) {}
      have := ((decodeWidth_decoded { spec with
        type := .none, flags := (decodeFlags (fmt.drop 1) {}).1 }
        (decodeFlags (fmt.drop 1) {}).2).mono hflags).measure_le
      omega
    next hlit =>
      obtain ⟨c, cs, rfl⟩ := exists_cons_of_ne_nil hne
      have hc : c ≠ '%'.toUInt8 := hlit
      rw [dropWhile_cons, if_pos (by simpa using hc), length_cons]
      have := (dropWhile_suffix (l := cs) (· ≠ '%'.toUInt8)).length_le
      have : pending FormatType.none = 0 := rfl
      dsimp only
      omega

lemma convert_measure {env : Env} {buf : Nat} {cur cur' : Cursor}
    {out out' : Output} (hne : cur.fmt ≠ []) (h : convert env buf cur out = some (cur', out')) :
    cur'.measure < cur.measure := by
  have hd := formatDecode_measure cur.spec hne
  unfold convert at h
  unfold Cursor.measure
  dsimp only at h
  have hdrop := (dropWhile_suffix (l := (formatDecode cur.fmt cur.spec).2) isalnum).length_le
  split at h
  all_goals first
    | obtain ⟨rfl, -⟩ := Prod.mk.inj (Option.some.inj h)
      dsimp only
      omega
    | cases h
    | skip
  split at h
  · obtain ⟨rfl, -⟩ := Prod.mk.inj (Option.some.inj h)
    exact hd
  · cases h

/-- The loop of `vsnprintf`. -/
def vsnprintfLoop (env : Env) (buf : Nat) (cur : Cursor) (out : Output) : Option Output :=
  if _hne : cur.fmt = [] then some out
  else
    match _h : convert env buf cur out with
    | some (cur', out') => vsnprintfLoop env buf cur' out'
    | none => none
termination_by cur.measure
decreasing_by exact convert_measure _hne _h

/-- A format string, shorter than an `int` counts. -/
structure Format where
  chars : List UInt8
  noNul : 0 ∉ chars
  short : chars.length < 2147483648

/-- The output before truncation: all that is put out, stored or not, and the
counts stored by `%n`. -/
def untruncated (env : Env) (fmt : Format) (args : List Arg) :
    Option (List UInt8 × List (Nat × Int)) :=
  (vsnprintfLoop env 0 ⟨fmt.chars, {}, args⟩
    ⟨⟨fun _ => 0, 0, 0, []⟩, []⟩).map fun out => (out.sink.log, out.stores)

/-- What a call of `vsnprintf` leaves: the return value, memory and the
stores of `%n`. -/
structure Result where
  ret : Int
  mem : Nat → UInt8
  stores : List (Nat × Int)

def vsnprintf (env : Env) (mem : Nat → UInt8) (buf size : Nat) (fmt : Format)
    (args : List Arg) : Option Result :=
  let w := env.word.bits
  if int size < 0 then some ⟨0, mem, []⟩
  else
    let «end» := (buf + size) % 2 ^ w
    let wraps := «end» < buf
    let «end» := if wraps then 2 ^ w - 1 else «end»
    let size := if wraps then «end» - buf else size
    match vsnprintfLoop env buf ⟨fmt.chars, {}, args⟩ ⟨⟨mem, buf, «end», []⟩, []⟩ with
    | none => none
    | some out =>
      let str := out.sink.pos
      let last := if str < «end» then str else «end» - 1
      some
        { ret := int (signed w ((str : Int) - (buf : Int)))
          mem := if 0 < size then Function.update out.sink.mem last 0
            else out.sink.mem
          stores := out.stores }

end BoardStack.Vsprintf
