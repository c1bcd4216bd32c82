/-
Socket filters: the interpreter and the checker (net/core/filter.c).

`sk_run_filter` interprets an array of instructions on a packet. It does not
look at its operands: an index of the scratch memory is used as it is, a
division by the constant of the instruction is done as it is, and a jump adds
what the instruction says to the program counter. `sk_chk_filter` is run once,
when the filter is attached, and is to rule out everything that could go wrong.

Both have a `switch` over the instruction code. Each is written as the list of
its cases, in the order of the source; a code that is not in the list falls
into the `default`. What must not happen is a result of its own (`Fault`), and
every way out of the interpreter has a name (`Why`).

Pointers have 32 bits and memory is little endian, as on the board. A shift by
32 or more, which C leaves open, is a parameter, and so is what the scratch
memory holds at the start. The fragments of a packet are taken as one sequence
of bytes behind its linear part.
-/
import BoardStack.Base.CInt

namespace BoardStack.Filter

open Base

-- == instructions

structure SockFilter where
  code : BitVec 16
  jt : BitVec 8
  jf : BitVec 8
  k : BitVec 32
deriving DecidableEq

def bpfMemwords : Nat := 16

def bpfClass (code : BitVec 16) : BitVec 16 := code &&& 0x07

def bpfLd : BitVec 16 := 0x00
def bpfLdx : BitVec 16 := 0x01
def bpfSt : BitVec 16 := 0x02
def bpfStx : BitVec 16 := 0x03
def bpfAlu : BitVec 16 := 0x04
def bpfJmp : BitVec 16 := 0x05
def bpfRet : BitVec 16 := 0x06
def bpfMisc : BitVec 16 := 0x07

def bpfW : BitVec 16 := 0x00
def bpfH : BitVec 16 := 0x08
def bpfB : BitVec 16 := 0x10

def bpfImm : BitVec 16 := 0x00
def bpfAbs : BitVec 16 := 0x20
def bpfInd : BitVec 16 := 0x40
def bpfMem : BitVec 16 := 0x60
def bpfLen : BitVec 16 := 0x80
def bpfMsh : BitVec 16 := 0xa0

def bpfAdd : BitVec 16 := 0x00
def bpfSub : BitVec 16 := 0x10
def bpfMul : BitVec 16 := 0x20
def bpfDiv : BitVec 16 := 0x30
def bpfOr : BitVec 16 := 0x40
def bpfAnd : BitVec 16 := 0x50
def bpfLsh : BitVec 16 := 0x60
def bpfRsh : BitVec 16 := 0x70
def bpfNeg : BitVec 16 := 0x80

def bpfJa : BitVec 16 := 0x00
def bpfJeq : BitVec 16 := 0x10
def bpfJgt : BitVec 16 := 0x20
def bpfJge : BitVec 16 := 0x30
def bpfJset : BitVec 16 := 0x40

def bpfK : BitVec 16 := 0x00
def bpfX : BitVec 16 := 0x08
def bpfA : BitVec 16 := 0x10

def bpfTax : BitVec 16 := 0x00
def bpfTxa : BitVec 16 := 0x80

-- == packets

/-- What `sk_run_filter` reads of a `struct sk_buff`. -/
structure Skb where
  len : BitVec 32
  dataLen : BitVec 32
  head : BitVec 32
  data : BitVec 32
  tail : BitVec 32
  networkHeader : BitVec 32
  macHeader : BitVec 32
  protocol : BitVec 16
  pktType : BitVec 32
  /-- `dev->ifindex`, if `dev` is not a null pointer. -/
  dev : Option (BitVec 32)
  /-- The bytes of the packet, fragments included, by their offset. -/
  bits : Nat → BitVec 8
  /-- Memory. -/
  memory : BitVec 32 → BitVec 8

/-- The bytes from a pointer on. -/
def Skb.at (skb : Skb) (ptr : BitVec 32) : Nat → BitVec 8 :=
  fun i => skb.memory (ptr + BitVec.ofNat 32 i)

/-- `skb_copy_bits`; `none` is the fault. -/
def skbCopyBits (skb : Skb) (offset len : Int) : Option (Nat → BitVec 8) :=
  if offset > signed 32 (skb.len.toInt - len) then none
  else some fun i => skb.bits (offset.toNat + i)

/-- `skb_header_pointer`: the bytes at the pointer, or in the buffer. -/
def skbHeaderPointer (skb : Skb) (offset len : Int) : Option (Nat → BitVec 8) :=
  let hlen := (skb.len - skb.dataLen).toInt
  if signed 32 (hlen - offset) ≥ len then
    some (skb.at (skb.data + BitVec.ofInt 32 offset))
  else skbCopyBits skb offset len

def skfAdOff : Int := -0x1000
def skfNetOff : Int := -0x100000
def skfLlOff : Int := -0x200000

/-- `__load_pointer`. -/
def loadPointerSlow (skb : Skb) (k : Int) : Option (Nat → BitVec 8) :=
  let ptr := if k ≥ skfNetOff then
      skb.networkHeader + BitVec.ofInt 32 (k - skfNetOff)
    else if k ≥ skfLlOff then skb.macHeader + BitVec.ofInt 32 (k - skfLlOff)
    else 0
  if skb.head ≤ ptr ∧ ptr < skb.tail then some (skb.at ptr) else none

def loadPointer (skb : Skb) (k : Int) (size : Int) : Option (Nat → BitVec 8) :=
  if k ≥ 0 then skbHeaderPointer skb k size
  else if k ≥ skfAdOff then none
  else loadPointerSlow skb k

inductive Size where
  | w
  | h
  | b
deriving DecidableEq

def Size.bytes : Size → Int
  | .w => 4
  | .h => 2
  | .b => 1

/-- `get_unaligned_be32`, `get_unaligned_be16` or a byte. -/
def Size.get : Size → (Nat → BitVec 8) → BitVec 32
  | .w, ptr => ptr 0 ++ ptr 1 ++ ptr 2 ++ ptr 3
  | .h, ptr => (ptr 0 ++ ptr 1).setWidth 32
  | .b, ptr => (ptr 0).setWidth 32

-- == netlink attributes

/-- `nla->nla_len`. -/
def nlaLen (skb : Skb) (nla : BitVec 32) : BitVec 16 := skb.at nla 1 ++ skb.at nla 0

/-- `nla_type(nla)`. -/
def nlaType (skb : Skb) (nla : BitVec 32) : Int :=
  (((skb.at nla 3 ++ skb.at nla 2) &&& 0x3fff : BitVec 16).toNat : Int)

/-- `NLA_ALIGN(len)`. -/
def nlaAlign (len : Nat) : Nat := (len + 3) / 4 * 4

def nlaOk (skb : Skb) (nla : BitVec 32) (remaining : Int) : Bool :=
  decide (remaining ≥ 4) && decide ((nlaLen skb nla).toNat ≥ 4) &&
    decide (((nlaLen skb nla).toNat : Int) ≤ remaining)

def nlaFind (skb : Skb) (nla : BitVec 32) (rem attrtype : Int) : Option (BitVec 32) :=
  if nlaOk skb nla rem then
    if nlaType skb nla = attrtype then some nla
    else
      let totlen := nlaAlign (nlaLen skb nla).toNat
      nlaFind skb (nla + BitVec.ofNat 32 totlen) (rem - totlen) attrtype
  else none
termination_by rem.toNat
decreasing_by
  rename_i hok _
  simp only [nlaOk, Bool.and_eq_true, decide_eq_true_eq] at hok
  unfold nlaAlign
  omega

def nlaFindNested (skb : Skb) (nla : BitVec 32) (attrtype : Int) : Option (BitVec 32) :=
  nlaFind skb (nla + 4) ((nlaLen skb nla).toNat - 4) attrtype

/-- The offset of what was found, or 0. -/
def nlaOffset (skb : Skb) : Option (BitVec 32) → BitVec 32
  | some nla => nla - skb.data
  | none => 0

-- == ancillary data

/-- What must not happen: `mem[]` indexed outside its bounds, a division by
zero, an instruction fetched outside the array, `dev->ifindex` of no `dev`. -/
inductive Fault where
  | memIndex
  | divByZero
  | badPc
  | nullDev
deriving DecidableEq

/-- `SKF_AD_PROTOCOL` to `SKF_AD_NLATTR_NEST`: what A is set to, if the
ancillary data can be had. There is no test for a packet without `dev`. -/
def ancillary (skb : Skb) (k : Int) (a x : BitVec 32) : Except Fault (Option (BitVec 32)) :=
  let ad := signed 32 (k - skfAdOff)
  if ad = 0 then .ok (some (skb.protocol.setWidth 32))
  else if ad = 4 then .ok (some skb.pktType)
  else if ad = 8 then
    match skb.dev with
    | some ifindex => .ok (some ifindex)
    | none => .error .nullDev
  else if ad = 12 then
    if skb.dataLen ≠ 0 then .ok none
    else if a > skb.len - 4 then .ok none
    else .ok (some (nlaOffset skb (nlaFind skb (skb.data + a) (skb.len - a).toInt x.toInt)))
  else if ad = 16 then
    if skb.dataLen ≠ 0 then .ok none
    else if a > skb.len - 4 then .ok none
    else if (nlaLen skb (skb.data + a)).setWidth 32 > a - skb.len then .ok none
    else .ok (some (nlaOffset skb (nlaFindNested skb (skb.data + a) x.toInt)))
  else .ok none

-- == interpreter

inductive Src where
  | k
  | x
deriving DecidableEq

inductive Alu where
  | add
  | sub
  | mul
  | div
  | and
  | or
  | lsh
  | rsh
deriving DecidableEq

inductive Cmp where
  | jgt
  | jge
  | jeq
  | jset
deriving DecidableEq

/-- The cases of the `switch` of `sk_run_filter`. -/
inductive RunCase where
  | alu (op : Alu) (src : Src)
  | neg
  | ja
  | jump (cmp : Cmp) (src : Src)
  | ldAbs (size : Size)
  | ldLen
  | ldxLen
  | ldInd (size : Size)
  | ldxMsh
  | ldImm
  | ldxImm
  | ldMem
  | ldxMem
  | tax
  | txa
  | retK
  | retA
  | st
  | stx
deriving DecidableEq

/-- The `switch` of `sk_run_filter`. -/
def runCases : List (BitVec 16 × RunCase) :=
  [(bpfAlu ||| bpfAdd ||| bpfX, .alu .add .x), (bpfAlu ||| bpfAdd ||| bpfK, .alu .add .k),
    (bpfAlu ||| bpfSub ||| bpfX, .alu .sub .x),
    (bpfAlu ||| bpfSub ||| bpfK, .alu .sub .k),
    (bpfAlu ||| bpfMul ||| bpfX, .alu .mul .x),
    (bpfAlu ||| bpfMul ||| bpfK, .alu .mul .k),
    (bpfAlu ||| bpfDiv ||| bpfX, .alu .div .x),
    (bpfAlu ||| bpfDiv ||| bpfK, .alu .div .k),
    (bpfAlu ||| bpfAnd ||| bpfX, .alu .and .x),
    (bpfAlu ||| bpfAnd ||| bpfK, .alu .and .k),
    (bpfAlu ||| bpfOr ||| bpfX, .alu .or .x),
    (bpfAlu ||| bpfOr ||| bpfK, .alu .or .k),
    (bpfAlu ||| bpfLsh ||| bpfX, .alu .lsh .x),
    (bpfAlu ||| bpfLsh ||| bpfK, .alu .lsh .k),
    (bpfAlu ||| bpfRsh ||| bpfX, .alu .rsh .x),
    (bpfAlu ||| bpfRsh ||| bpfK, .alu .rsh .k),
    (bpfAlu ||| bpfNeg, .neg),
    (bpfJmp ||| bpfJa, .ja),
    (bpfJmp ||| bpfJgt ||| bpfK, .jump .jgt .k),
    (bpfJmp ||| bpfJge ||| bpfK, .jump .jge .k),
    (bpfJmp ||| bpfJeq ||| bpfK, .jump .jeq .k),
    (bpfJmp ||| bpfJset ||| bpfK, .jump .jset .k),
    (bpfJmp ||| bpfJgt ||| bpfX, .jump .jgt .x),
    (bpfJmp ||| bpfJge ||| bpfX, .jump .jge .x),
    (bpfJmp ||| bpfJeq ||| bpfX, .jump .jeq .x),
    (bpfJmp ||| bpfJset ||| bpfX, .jump .jset .x),
    (bpfLd ||| bpfW ||| bpfAbs, .ldAbs .w),
    (bpfLd ||| bpfH ||| bpfAbs, .ldAbs .h),
    (bpfLd ||| bpfB ||| bpfAbs, .ldAbs .b),
    (bpfLd ||| bpfW ||| bpfLen, .ldLen),
    (bpfLdx ||| bpfW ||| bpfLen, .ldxLen),
    (bpfLd ||| bpfW ||| bpfInd, .ldInd .w),
    (bpfLd ||| bpfH ||| bpfInd, .ldInd .h),
    (bpfLd ||| bpfB ||| bpfInd, .ldInd .b),
    (bpfLdx ||| bpfB ||| bpfMsh, .ldxMsh),
    (bpfLd ||| bpfImm, .ldImm),
    (bpfLdx ||| bpfImm, .ldxImm),
    (bpfLd ||| bpfMem, .ldMem),
    (bpfLdx ||| bpfMem, .ldxMem),
    (bpfMisc ||| bpfTax, .tax),
    (bpfMisc ||| bpfTxa, .txa),
    (bpfRet ||| bpfK, .retK),
    (bpfRet ||| bpfA, .retA),
    (bpfSt, .st),
    (bpfStx, .stx)]

/-- What is left open: shifts by 32 or more, and the scratch memory at the
start. -/
structure Env where
  shl : BitVec 32 → BitVec 32 → BitVec 32
  shr : BitVec 32 → BitVec 32 → BitVec 32
  mem : Nat → BitVec 32

/-- The variables of `sk_run_filter`. -/
structure State where
  pc : Int
  a : BitVec 32
  x : BitVec 32
  mem : Nat → BitVec 32

/-- How the interpreter comes to return: through a `BPF_RET`, after a load that
failed, before a division by an X of zero, at its `WARN_ON`, or behind the last
instruction. -/
inductive Why where
  | ret
  | failedLoad
  | zeroX
  | warnOn
  | behindLast
deriving DecidableEq

inductive Ending where
  | returned (value : BitVec 32) (why : Why)
  | fault (f : Fault)
deriving DecidableEq

inductive Outcome where
  | next (s : State)
  | ended (e : Ending)

/-- The operator of an instruction other than a division. -/
def aluOp (env : Env) : Alu → BitVec 32 → BitVec 32 → BitVec 32
  | .add, a, v => a + v
  | .sub, a, v => a - v
  | .mul, a, v => a * v
  | .div, a, v => a / v
  | .and, a, v => a &&& v
  | .or, a, v => a ||| v
  | .lsh, a, v => env.shl a v
  | .rsh, a, v => env.shr a v

def Cmp.holds : Cmp → BitVec 32 → BitVec 32 → Bool
  | .jgt, a, v => decide (a > v)
  | .jge, a, v => decide (a ≥ v)
  | .jeq, a, v => decide (a = v)
  | .jset, a, v => decide (a &&& v ≠ 0)

/-- `continue`, after `pc += d`. -/
def goOn (s : State) (d : Nat) : Outcome :=
  .next { s with pc := signed 32 (signed 32 (s.pc + d) + 1) }

def load (skb : Skb) (s : State) (k : Int) (size : Size) : Outcome :=
  match loadPointer skb k size.bytes with
  | some ptr => goOn { s with a := size.get ptr } 0
  | none =>
    match ancillary skb k s.a s.x with
    | .ok (some a) => goOn { s with a := a } 0
    | .ok none => .ended (.returned 0 .failedLoad)
    | .error f => .ended (.fault f)

/-- An access to `mem[k]`. -/
def withMem (fentry : SockFilter) (o : Outcome) : Outcome :=
  if fentry.k.toNat < bpfMemwords then o else .ended (.fault .memIndex)

/-- One case of the `switch`. -/
def runCase (env : Env) (skb : Skb) (fentry : SockFilter) (s : State) : RunCase → Outcome
  | .alu .div .x =>
    if s.x = 0 then .ended (.returned 0 .zeroX)
    else goOn { s with a := s.a / s.x } 0
  | .alu .div .k =>
    if fentry.k = 0 then .ended (.fault .divByZero)
    else goOn { s with a := s.a / fentry.k } 0
  | .alu op .x => goOn { s with a := aluOp env op s.a s.x } 0
  | .alu op .k => goOn { s with a := aluOp env op s.a fentry.k } 0
  | .neg => goOn { s with a := -s.a } 0
  | .ja => goOn s fentry.k.toNat
  | .jump cmp src =>
    let v := match src with
      | .k => fentry.k
      | .x => s.x
    goOn s (if cmp.holds s.a v then fentry.jt.toNat else fentry.jf.toNat)
  | .ldAbs size => load skb s fentry.k.toInt size
  | .ldLen => goOn { s with a := skb.len } 0
  | .ldxLen => goOn { s with x := skb.len } 0
  | .ldInd size => load skb s (s.x + fentry.k).toInt size
  | .ldxMsh =>
    match loadPointer skb fentry.k.toInt 1 with
    | some ptr =>
      goOn { s with x := ((ptr 0 &&& 0xf).setWidth 32) <<< 2 } 0
    | none => .ended (.returned 0 .failedLoad)
  | .ldImm => goOn { s with a := fentry.k } 0
  | .ldxImm => goOn { s with x := fentry.k } 0
  | .ldMem => withMem fentry (goOn { s with a := s.mem fentry.k.toNat } 0)
  | .ldxMem => withMem fentry (goOn { s with x := s.mem fentry.k.toNat } 0)
  | .tax => goOn { s with x := s.a } 0
  | .txa => goOn { s with a := s.x } 0
  | .retK => .ended (.returned fentry.k .ret)
  | .retA => .ended (.returned s.a .ret)
  | .st =>
    withMem fentry (goOn { s with
      mem := fun i => if i = fentry.k.toNat then s.a else s.mem i } 0)
  | .stx =>
    withMem fentry (goOn { s with
      mem := fun i => if i = fentry.k.toNat then s.x else s.mem i } 0)

def turn (env : Env) (skb : Skb) (filter : List SockFilter) (s : State) :
    Outcome :=
  if s.pc < 0 then .ended (.fault .badPc)
  else
    match filter[s.pc.toNat]? with
    | none => .ended (.fault .badPc)
    | some fentry =>
      match runCases.lookup fentry.code with
      | some c => runCase env skb fentry s c
      | none => .ended (.returned 0 .warnOn)

end BoardStack.Filter
