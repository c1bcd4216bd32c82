/-
Motorola S-records, as the boot loader reads them: common/s_record.c.

A string is the list of its characters; behind its end there is its null
character. An error carries what `srec_decode` has left in `count`, `addr` and
`data` when it returns.

A record is spelled as bytes of two digits each: the count, the address, the
data and the checksum. What `srec_decode` does with a record is a function of
these bytes; it accepts it if the sum of the bytes is 255 modulo 256, and one
changed digit changes the sum.
-/
import Mathlib.Tactic.Ring
import Mathlib.Data.List.Basic
import Mathlib.Tactic.IntervalCases

namespace BoardStack.SRecord

-- == return codes

/-- `SREC_EMPTY`, `SREC_E_BADTYPE`, `SREC_E_NOSREC` and `SREC_E_BADCHKS`. -/
def srecEmpty : Int := 10
def srecEBadtype : Int := -1
def srecENosrec : Int := -2
def srecEBadchks : Int := -3

-- == digits

def hex1Bin (c : Char) : Int :=
  if '0' ≤ c ∧ c ≤ '9' then c.toNat - '0'.toNat
  else if 'a' ≤ c ∧ c ≤ 'f' then c.toNat + 10 - 'a'.toNat
  else if 'A' ≤ c ∧ c ≤ 'F' then c.toNat + 10 - 'A'.toNat
  else -1

/-- `*s`. -/
def peek (s : List Char) : Char := s.headD '\x00'

def hex2Bin (s : List Char) : Int :=
  let i := hex1Bin (peek s)
  if i < 0 then -1
  else
    let j := hex1Bin (peek s.tail)
    if j < 0 then -1 else 16 * i + j

-- == srec_decode

/-- The variables of `srec_decode`, and what it writes to. -/
structure Srec where
  input : List Char
  count : Int
  addr : Nat
  data : Nat → BitVec 8
  chksum : BitVec 8

/-- What runs to its end or returns from `srec_decode`. -/
abbrev Step := Srec → Except (Int × Srec) Srec

/-- Skip anything before `S`, and the `S` itself. -/
def skip : List Char → List Char
  | [] => []
  | c :: rest =>
    if c = '\x00' then c :: rest
    else if c = 'S' then rest
    else skip rest

/-- The first switch: the type, and `*count` without checksum and address. -/
def recordType (v : Char) (count : Int) : Option (Int × Int) :=
  match v with
  | '0' => some (0, count - 3)
  | '1' => some (1, count - 3)
  | '2' => some (2, count - 4)
  | '3' => some (3, count - 5)
  | '5' => some (5, 0)
  | '7' => some (7, count - 5)
  | '8' => some (8, count - 4)
  | '9' => some (9, count - 3)
  | _ => none

/-- A byte of the address field; `*addr` has 32 bits. -/
def addrByte (shift : Nat) : Step := fun s =>
  let v := hex2Bin s.input
  if v < 0 then .error (srecENosrec, s)
  else .ok { s with
    addr := (s.addr <<< shift % 2 ^ 32 + v.toNat) % 2 ^ 32
    chksum := s.chksum + BitVec.ofInt 8 v
    input := s.input.drop 2 }

/-- The second switch, whose cases fall through. -/
def addrField (v : Char) : Step := fun s =>
  let low : Step := fun s => addrByte 8 s >>= addrByte 8
  let middle : Step := fun s => addrByte 8 s >>= low
  match v with
  | '3' | '7' => addrByte 0 s >>= middle
  | '2' | '8' => middle s
  | '0' | '1' | '5' | '9' => low s
  | _ => .error (srecEBadtype, s)

/-- Convert the data and calculate the checksum, from `i` on. -/
def dataLoop : Nat → Nat → Step
  | 0, _, s => .ok s
  | turns + 1, i, s =>
    let v := hex2Bin s.input
    if v < 0 then .error (srecENosrec, s)
    else dataLoop turns (i + 1) { s with
      data := Function.update s.data i (BitVec.ofInt 8 v)
      chksum := s.chksum + BitVec.ofInt 8 v
      input := s.input.drop 2 }

def checksum (srecType : Int) (s : Srec) : Int × Srec :=
  let v := hex2Bin s.input
  if v < 0 then (srecENosrec, s)
  else if BitVec.ofInt 8 v ≠ ~~~s.chksum then (srecEBadchks, s)
  else (srecType, s)

/-- `srec_decode`: what it returns, and what it leaves in `count`, `addr` and
`data`. -/
def srecDecode (s : Srec) : Int × Srec :=
  let input := skip s.input
  let v := peek input
  if v = '\x00' then (srecEmpty, { s with input := input, chksum := 0 })
  else
    let input := input.drop 1
    let count := hex2Bin input
    let s := { s with input := input, count := count, chksum := 0 }
    if count < 0 then (srecENosrec, s)
    else
      let s := { s with
        chksum := s.chksum + BitVec.ofInt 8 count
        input := s.input.drop 2 }
      match recordType v count with
      | none => (srecEBadtype, s)
      | some (srecType, count) =>
        let s := { s with count := count, addr := 0 }
        match addrField v s >>= dataLoop count.toNat 0 with
        | .error e => e
        | .ok s => checksum srecType s

open List Nat

-- == the records

inductive RecordType
  | start
  | data2
  | data3
  | data4
  | end4
  | end3
  | end2
deriving DecidableEq, Repr

def RecordType.code : RecordType → Nat
  | .start => 0
  | .data2 => 1
  | .data3 => 2
  | .data4 => 3
  | .end4 => 7
  | .end3 => 8
  | .end2 => 9

def RecordType.char (t : RecordType) : Char := Char.ofNat ('0'.toNat + t.code)

def RecordType.width : RecordType → Nat
  | .start | .data2 | .end2 => 2
  | .data3 | .end3 => 3
  | .data4 | .end4 => 4

def byteSum : List Nat → Nat
  | [] => 0
  | b :: bs => b + byteSum bs

/-- A number in `w` bytes, the highest first. -/
def addrBytes : Nat → Nat → List Nat
  | 0, _ => []
  | w + 1, a => a / 256 ^ w % 256 :: addrBytes w a

def recordBody (t : RecordType) (addr : Nat) (data : List (BitVec 8)) : List Nat :=
  (t.width + data.length + 1) :: (addrBytes t.width addr ++ data.map (·.toNat))

/-- The bytes of a record, with the complement of the sum behind the others. -/
def recordBytes (t : RecordType) (addr : Nat) (data : List (BitVec 8)) : List Nat :=
  recordBody t addr data ++ [255 - byteSum (recordBody t addr data) % 256]

def IsHex (c : Char) (n : Nat) : Prop :=
  "0123456789ABCDEF".toList[n]? = some c ∨ "0123456789abcdef".toList[n]? = some c

inductive Spells : List Char → List Nat → Prop
  | nil : Spells [] []
  | cons {c c' : Char} {h l : Nat} {cs : List Char} {bs : List Nat} :
      IsHex c h → IsHex c' l → Spells cs bs → Spells (c :: c' :: cs) ((16 * h + l) :: bs)

def addrOf : List Nat → Nat
  | [] => 0
  | b :: bs => b * 256 ^ bs.length + addrOf bs

variable {t : RecordType} {c c' : Char} {h l k n : Nat} {cs rest : List Char} {bs : List Nat}
variable {pre : List Char} {b m x y : Nat}

-- == the digits

lemma IsHex.lt (hc : IsHex c n) : n < 16 := by
  rcases hc with hup | hlow
  · exact (List.getElem?_eq_some_iff.mp hup).1
  · exact (List.getElem?_eq_some_iff.mp hlow).1

lemma IsHex.hex1Bin (hc : IsHex c n) : hex1Bin c = n := by
  have hn := hc.lt
  rcases hc with hup | hlow
  · interval_cases n <;> cases hup <;> decide
  · interval_cases n <;> cases hlow <;> decide

lemma hex2Bin_digits (hc : IsHex c h) (hc' : IsHex c' l) :
    hex2Bin (c :: c' :: rest) = ((16 * h + l : Nat) : Int) := by
  unfold hex2Bin peek
  dsimp only [headD, List.tail]
  rw [hc.hex1Bin, hc'.hex1Bin, if_neg (by omega), if_neg (by omega)]
  rfl

lemma Spells.lt (hs : Spells cs bs) : ∀ b, b ∈ bs → b < 256 := by
  induction hs with
  | nil => simp
  | cons hc hc' _ ih =>
    intro b hb
    have hlo := hc.lt
    have hhi := hc'.lt
    rcases mem_cons.mp hb with rfl | hb
    · omega
    · exact ih b hb

lemma Spells.append_inv {as : List Nat} (hs : Spells cs (as ++ bs)) :
    ∃ cs1 cs2, cs = cs1 ++ cs2 ∧ Spells cs1 as ∧ Spells cs2 bs := by
  induction as generalizing cs with
  | nil => exact ⟨[], cs, rfl, .nil, hs⟩
  | cons a as ih =>
    cases hs with
    | cons hc hc' hrest =>
      obtain ⟨cs1, cs2, rfl, hleft, hright⟩ := ih hrest
      exact ⟨_, cs2, rfl, .cons hc hc' hleft, hright⟩

-- == the address

def Srec.addrRead (shift b : Nat) (rest : List Char) (s : Srec) : Srec :=
  { s with
    addr := (s.addr <<< shift % 2 ^ 32 + b) % 2 ^ 32
    chksum := s.chksum + BitVec.ofNat 8 b
    input := rest }

lemma addrByte_digits (shift : Nat) (s : Srec) (hc : IsHex c h)
    (hc' : IsHex c' l) (hs : s.input = c :: c' :: rest) :
    addrByte shift s = .ok (s.addrRead shift (16 * h + l) rest) := by
  unfold addrByte
  rw [hs, hex2Bin_digits hc hc', if_neg (by omega)]
  rfl

lemma Spells.inv (hs : Spells cs (b :: bs)) :
    ∃ c c' h l cs', cs = c :: c' :: cs' ∧ b = 16 * h + l ∧ IsHex c h ∧
      IsHex c' l ∧ Spells cs' bs := by
  cases hs with
  | cons hc hc' hrest => exact ⟨_, _, _, _, _, rfl, rfl, hc, hc', hrest⟩

lemma addrByte_spelled (shift : Nat) (s : Srec)
    (hs : Spells cs (b :: bs)) (hin : s.input = cs ++ rest) :
    ∃ cs', Spells cs' bs ∧ addrByte shift s = .ok (s.addrRead shift b (cs' ++ rest)) := by
  obtain ⟨c, c', h, l, cs', rfl, rfl, hc, hc', hrest⟩ := hs.inv
  exact ⟨cs', hrest, addrByte_digits shift s hc hc' hin⟩

def Srec.fieldRead (bs : List Nat) (rest : List Char) (s : Srec) : Srec :=
  { s with
    addr := s.addr * 256 ^ bs.length + addrOf bs
    chksum := s.chksum + BitVec.ofNat 8 (byteSum bs)
    input := rest }

lemma addrByte_fieldRead (s : Srec) (hs : Spells cs (b :: bs))
    (hin : s.input = cs ++ rest) (hfits : s.addr < 2 ^ 24) :
    ∃ cs', Spells cs' bs ∧ addrByte 8 s = .ok (s.fieldRead [b] (cs' ++ rest)) := by
  obtain ⟨cs', hrest, hstep⟩ := addrByte_spelled 8 s hs hin
  have hb := hs.lt b (mem_cons_self ..)
  refine ⟨cs', hrest, ?_⟩
  rw [hstep]
  unfold Srec.addrRead Srec.fieldRead
  have haddr : (s.addr <<< 8 % 2 ^ 32 + b) % 2 ^ 32 = s.addr * 256 ^ [b].length + addrOf [b] := by
    simp only [length_cons, length_nil, addrOf]
    omega
  rw [haddr]
  rfl

lemma Srec.fieldRead_cons (b : Nat) (bs : List Nat) (mid rest : List Char) (s : Srec) :
    (s.fieldRead [b] mid).fieldRead bs rest = s.fieldRead (b :: bs) rest := by
  unfold Srec.fieldRead
  dsimp only [byteSum, addrOf, length_cons, length_nil]
  have haddr : (s.addr * 256 ^ (0 + 1) + (b * 256 ^ 0 + 0)) * 256 ^ bs.length + addrOf bs
      = s.addr * 256 ^ (bs.length + 1) + (b * 256 ^ bs.length + addrOf bs) := by
    ring
  have hsum : s.chksum + BitVec.ofNat 8 (b + 0) + BitVec.ofNat 8 (byteSum bs)
      = s.chksum + BitVec.ofNat 8 (b + byteSum bs) := by
    rw [BitVec.add_assoc, ← BitVec.ofNat_add, add_zero]
  rw [haddr, hsum]

lemma low_spelled (s : Srec) (hs : Spells cs [x, y])
    (hin : s.input = cs ++ rest) (hfits : s.addr < 2 ^ 16) :
    (addrByte 8 s >>= addrByte 8) = .ok (s.fieldRead [x, y] rest) := by
  obtain ⟨cs1, hspell1, hstep1⟩ := addrByte_fieldRead s hs hin (by omega)
  have hx := hs.lt x (by simp)
  have haddr : (s.fieldRead [x] (cs1 ++ rest)).addr < 2 ^ 24 := by
    simp only [Srec.fieldRead, addrOf, length_cons, length_nil]
    omega
  obtain ⟨cs2, hspell2, hstep2⟩ := addrByte_fieldRead _ hspell1 rfl haddr
  cases hspell2
  rw [hstep1]
  exact hstep2.trans (congrArg Except.ok (Srec.fieldRead_cons x [y] _ _ s))

lemma middle_spelled {z : Nat} (s : Srec) (hs : Spells cs [x, y, z])
    (hin : s.input = cs ++ rest) (hfits : s.addr < 2 ^ 8) :
    (addrByte 8 s >>= fun s => addrByte 8 s >>= addrByte 8) = .ok (s.fieldRead [x, y, z] rest) := by
  obtain ⟨cs1, hspell1, hstep1⟩ := addrByte_fieldRead s hs hin (by omega)
  have hx := hs.lt x (by simp)
  have haddr : (s.fieldRead [x] (cs1 ++ rest)).addr < 2 ^ 16 := by
    simp only [Srec.fieldRead, addrOf, length_cons, length_nil]
    omega
  have hlow := low_spelled _ hspell1 rfl haddr
  rw [hstep1]
  exact hlow.trans (congrArg Except.ok (Srec.fieldRead_cons x [y, z] _ _ s))

lemma top_spelled {w z : Nat} (s : Srec) (hs : Spells cs [w, x, y, z])
    (hin : s.input = cs ++ rest) (hzero : s.addr = 0) :
    (addrByte 0 s >>= fun s => addrByte 8 s >>= fun s => addrByte 8 s >>= addrByte 8)
      = .ok (s.fieldRead [w, x, y, z] rest) := by
  obtain ⟨cs1, hspell1, hstep1⟩ := addrByte_spelled 0 s hs hin
  have hw := hs.lt w (by simp)
  -- the first byte is not shifted, but there is nothing to shift
  have hsame : s.addrRead 0 w (cs1 ++ rest) = s.fieldRead [w] (cs1 ++ rest) := by
    unfold Srec.addrRead Srec.fieldRead
    simp [addrOf, byteSum]
    omega
  have haddr : (s.fieldRead [w] (cs1 ++ rest)).addr < 2 ^ 8 := by
    simp only [Srec.fieldRead, addrOf, length_cons, length_nil, hzero]
    omega
  have hmiddle := middle_spelled _ hspell1 rfl haddr
  rw [hstep1, hsame]
  exact hmiddle.trans (congrArg Except.ok (Srec.fieldRead_cons w [x, y, z] _ _ s))

lemma addrField_spelled (t : RecordType) (s : Srec) (hs : Spells cs bs)
    (hlen : bs.length = t.width) (hin : s.input = cs ++ rest) (hzero : s.addr = 0) :
    addrField t.char s = .ok (s.fieldRead bs rest) := by
  have htwo : t.width = 2 → (addrByte 8 s >>= addrByte 8) = .ok (s.fieldRead bs rest) := by
    intro hw
    obtain ⟨x, y, rfl⟩ := length_eq_two.mp (hlen.trans hw)
    exact low_spelled s hs hin (by omega)
  have hthree : t.width = 3 → (addrByte 8 s >>= fun s => addrByte 8 s >>= addrByte 8)
        = .ok (s.fieldRead bs rest) := by
    intro hw
    obtain ⟨x, y, z, rfl⟩ := length_eq_three.mp (hlen.trans hw)
    exact middle_spelled s hs hin (by omega)
  have hfour : t.width = 4 → (addrByte 0 s >>= fun s => addrByte 8 s >>=
      fun s => addrByte 8 s >>= addrByte 8) = .ok (s.fieldRead bs rest) := by
    intro hw
    obtain ⟨w, bs, rfl⟩ := exists_cons_of_length_eq_add_one (hlen.trans hw)
    obtain ⟨x, y, z, rfl⟩ := length_eq_three.mp (Nat.succ.inj (hlen.trans hw))
    exact top_spelled s hs hin hzero
  cases t with
  | start | data2 | end2 => exact htwo rfl
  | data3 | end3 => exact hthree rfl
  | data4 | end4 => exact hfour rfl

-- == the data

/-- Bytes in a buffer from `i` on. -/
def fill (data : Nat → BitVec 8) : Nat → List Nat → Nat → BitVec 8
  | _, [] => data
  | i, b :: bs => fill (Function.update data i (BitVec.ofNat 8 b)) (i + 1) bs

lemma dataLoop_spelled (s : Srec) (i : Nat) (hs : Spells cs bs) (hin : s.input = cs ++ rest) :
    dataLoop bs.length i s = .ok { s with
      data := fill s.data i bs
      chksum := s.chksum + BitVec.ofNat 8 (byteSum bs)
      input := rest } := by
  induction hs generalizing i s with
  | nil =>
    have hrest : s.input = rest := hin
    simp [dataLoop, fill, byteSum, ← hrest]
  | cons hc hc' _ ih =>
    rw [length_cons, dataLoop, hin, cons_append, cons_append,
      hex2Bin_digits hc hc', if_neg (by omega)]
    rw [ih _ _ rfl]
    dsimp only [fill, byteSum]
    rw [BitVec.ofInt_natCast, BitVec.add_assoc, ← BitVec.ofNat_add]

lemma fill_apply (data : Nat → BitVec 8) (i : Nat) (bs : List Nat) (j : Nat) :
    fill data i bs j = if i ≤ j ∧ j < i + bs.length then BitVec.ofNat 8 (bs.getD (j - i) 0)
        else data j := by
  induction bs generalizing data i with
  | nil => simp [fill]
  | cons b bs ih =>
    unfold fill
    rw [ih]
    by_cases hj : j = i
    · subst hj
      simp
    by_cases hlt : i + 1 ≤ j ∧ j < i + 1 + bs.length
    · have hin : i ≤ j ∧ j < i + (b :: bs).length := by
        simp only [length_cons]
        omega
      have hsub : j - i = j - (i + 1) + 1 := by omega
      rw [if_pos hlt, if_pos hin, hsub, getD_cons_succ]
    · have hout : ¬(i ≤ j ∧ j < i + (b :: bs).length) := by
        simp only [length_cons]
        omega
      rw [if_neg hlt, if_neg hout, Function.update_of_ne hj]

-- == the record

lemma skip_prefix (hpre : ∀ c, c ∈ pre → c ≠ 'S' ∧ c ≠ '\x00')
    (rest : List Char) : skip (pre ++ 'S' :: rest) = rest := by
  induction pre with
  | nil => rfl
  | cons c pre ih =>
    obtain ⟨hletter, hnull⟩ := hpre c (mem_cons_self ..)
    rw [cons_append, skip, if_neg hnull, if_neg hletter]
    exact ih fun d hd => hpre d (mem_cons_of_mem _ hd)

lemma recordType_char (t : RecordType) (count : Int) :
    recordType t.char count = some ((t.code : Int), count - (t.width + 1)) := by
  cases t <;> rfl

lemma char_ne_null (t : RecordType) : t.char ≠ '\x00' := by
  cases t <;> decide

lemma checksum_ok (v m : Nat) : BitVec.ofNat 8 v ≠ ~~~BitVec.ofNat 8 m ↔ (m + v) % 256 ≠ 255 := by
  constructor
  · intro hne hsum
    apply hne
    apply BitVec.eq_of_toNat_eq
    rw [BitVec.toNat_not, BitVec.toNat_ofNat, BitVec.toNat_ofNat]
    omega
  · intro hne heq
    have hnat := congrArg BitVec.toNat heq
    rw [BitVec.toNat_not, BitVec.toNat_ofNat, BitVec.toNat_ofNat] at hnat
    omega

lemma checksum_spelled {ck : Nat} (ty : Int) (s : Srec) (hs : Spells cs [ck])
    (hin : s.input = cs ++ rest) (hsum : s.chksum = BitVec.ofNat 8 m) :
    checksum ty s = (if (m + ck) % 256 = 255 then ty else srecEBadchks, s) := by
  obtain ⟨c, c', h, l, cs', rfl, rfl, hc, hc', -⟩ := hs.inv
  unfold checksum
  rw [hin, cons_append, cons_append, hex2Bin_digits hc hc',
    if_neg (by omega), BitVec.ofInt_natCast, hsum]
  by_cases hok : (m + (16 * h + l)) % 256 = 255
  · rw [if_neg (fun hne => (checksum_ok _ _).mp hne hok), if_pos hok]
  · rw [if_pos ((checksum_ok _ _).mpr hok), if_neg hok]

lemma byteSum_append (as bs : List Nat) : byteSum (as ++ bs) = byteSum as + byteSum bs := by
  induction as with
  | nil => simp [byteSum]
  | cons a as ih =>
    rw [cons_append, byteSum, byteSum, ih, add_assoc]

variable {post : List Char}

lemma srecDecode_spelled (t : RecordType) (s : Srec)
    (hpre : ∀ c, c ∈ pre → c ≠ 'S' ∧ c ≠ '\x00') {as ds : List Nat} {ck : Nat}
    (has : as.length = t.width) (hn : n = t.width + ds.length + 1)
    (hs : Spells cs (n :: (as ++ (ds ++ [ck]))))
    (hin : s.input = pre ++ 'S' :: t.char :: (cs ++ post)) :
    ∃ s', srecDecode s = (if byteSum (n :: (as ++ (ds ++ [ck]))) % 256 = 255 then (t.code : Int)
          else srecEBadchks, s') ∧
      s'.count = ds.length ∧ s'.addr = addrOf as ∧ s'.data = fill s.data 0 ds := by
  obtain ⟨c, c', h, l, cs1, rfl, hcount, hc, hc', hs1⟩ := hs.inv
  obtain ⟨csA, cs2, rfl, hA, hs2⟩ := hs1.append_inv
  obtain ⟨csD, csK, rfl, hD, hK⟩ := hs2.append_inv
  have hturns : ((n : Int) - (t.width + 1)) = (ds.length : Nat) := by omega
  have hpeek : ∀ tail, peek (t.char :: tail) = t.char := fun _ => rfl
  unfold srecDecode
  dsimp only
  rw [hin, skip_prefix hpre, hpeek, if_neg (char_ne_null t), drop_one,
    tail_cons, cons_append, cons_append, hex2Bin_digits hc hc',
    ← hcount, if_neg (by omega), recordType_char, hturns]
  dsimp only [drop]
  rw [Int.toNat_natCast, BitVec.ofInt_natCast,
    addrField_spelled t _ hA has (by rw [append_assoc]) rfl]
  -- the state behind the address, then the one behind the data
  have hdata := dataLoop_spelled (Srec.fieldRead as (csD ++ csK ++ post)
      ⟨csA ++ (csD ++ csK) ++ post, (ds.length : Nat), 0, s.data,
        0 + BitVec.ofNat 8 n⟩) 0 hD (append_assoc ..)
  have hmatch : ∀ (s1 : Srec) (f : Step),
      ((Except.ok s1 : Except (Int × Srec) Srec) >>= f) = f s1 := fun _ _ => rfl
  rw [hmatch, hdata]
  dsimp only
  rw [checksum_spelled (m := n + byteSum as + byteSum ds) _ _ hK rfl]
  · refine ⟨_, Prod.ext ?_ rfl, rfl, ?_, rfl⟩
    · rw [byteSum, byteSum_append, byteSum_append, byteSum, byteSum,
        add_zero, ← add_assoc, ← add_assoc]
    · simp [Srec.fieldRead]
  · simp [Srec.fieldRead, BitVec.ofNat_add]

lemma fields {w : Nat} (hlen : w + 1 ≤ bs.length) :
    ∃ as ds ck, bs = as ++ (ds ++ [ck]) ∧ as.length = w ∧ bs.length = w + ds.length + 1 := by
  rcases eq_nil_or_concat (bs.drop w) with hnil | ⟨ds, ck, heq⟩
  · have hdrop := drop_eq_nil_iff.mp hnil
    omega
  rw [concat_eq_append] at heq
  have hlast := congrArg length heq
  simp only [length_drop, length_append, length_cons, length_nil] at hlast
  refine ⟨bs.take w, ds, ck, ?_, ?_, by omega⟩
  · rw [← heq, take_append_drop]
  · rw [length_take]
    omega

lemma srecDecode_bytes (t : RecordType) (s : Srec) (hpre : ∀ c, c ∈ pre → c ≠ 'S' ∧ c ≠ '\x00')
    (hlen : t.width + 1 ≤ bs.length) (hs : Spells cs (bs.length :: bs))
    (hin : s.input = pre ++ 'S' :: t.char :: (cs ++ post)) :
    ∃ s', srecDecode s
        = (if byteSum (bs.length :: bs) % 256 = 255 then (t.code : Int) else srecEBadchks, s') := by
  obtain ⟨as, ds, ck, heq, has, hcount⟩ := fields hlen
  generalize hn : bs.length = n at *
  subst heq
  obtain ⟨s', hdecode, -⟩ := srecDecode_spelled t s hpre has (by omega) hs hin
  exact ⟨s', hdecode⟩

-- == changed digits

lemma IsHex.unique (hn : IsHex c n) (hm : IsHex c m) : n = m := by
  have heq := hn.hex1Bin.symm.trans hm.hex1Bin
  exact Int.ofNat.inj heq

lemma byteSum_set {i : Nat} (hi : i < bs.length) :
    byteSum (bs.set i b) + bs[i] = byteSum bs + b := by
  induction bs generalizing i with
  | nil => simp at hi
  | cons a bs ih =>
    cases i with
    | zero =>
      simp only [set_cons_zero, byteSum, getElem_cons_zero]
      omega
    | succ i =>
      have hrest := ih (i := i) (by simpa using hi)
      simp only [set_cons_succ, byteSum, getElem_cons_succ]
      omega

lemma Spells.set {old : Char} (hs : Spells cs bs)
    (hk : cs[k]? = some old) (hold : IsHex old n) (hc : IsHex c m) (hne : n ≠ m) :
    ∃ b, ∃ hlt : k / 2 < bs.length, b < 256 ∧ b ≠ bs[k / 2] ∧
      Spells (cs.set k c) (bs.set (k / 2) b) := by
  induction hs generalizing k with
  | nil => simp at hk
  | @cons c1 c2 h l cs bs hc1 hc2 hrest ih =>
    have hlow := hc.lt
    have hh := hc1.lt
    have hl := hc2.lt
    match k with
    | 0 =>
      obtain rfl : c1 = old := by simpa using hk
      obtain rfl := hold.unique hc1
      refine ⟨16 * m + l, by simp, by omega, ?_, .cons hc hc2 hrest⟩
      simp only [Nat.zero_div, getElem_cons_zero]
      omega
    | 1 =>
      obtain rfl : c2 = old := by simpa using hk
      obtain rfl := hold.unique hc2
      refine ⟨16 * h + m, by simp, by omega, ?_, .cons hc1 hc hrest⟩
      simp only [reduceDiv, getElem_cons_zero]
      omega
    | k + 2 =>
      obtain ⟨b, hlt, hb, hdiff, hspell⟩ := ih (k := k) (by simpa using hk)
      have hhalf : (k + 2) / 2 = k / 2 + 1 := by omega
      refine ⟨b, ?_, hb, ?_, ?_⟩
      · simp only [hhalf, length_cons]
        omega
      · simpa only [hhalf, getElem_cons_succ] using hdiff
      · simp only [hhalf, set_cons_succ]
        exact .cons hc1 hc2 hspell

lemma byteSum_changed {i : Nat} (hi : i < bs.length) (hb : b < 256)
    (hold : bs[i] < 256) (hne : b ≠ bs[i]) (hsum : byteSum bs % 256 = 255) :
    byteSum (bs.set i b) % 256 ≠ 255 := by
  have hset := byteSum_set (b := b) hi
  omega

-- == the encoding

lemma length_addrBytes (w a : Nat) : (addrBytes w a).length = w := by
  induction w with
  | zero => rfl
  | succ w ih => rw [addrBytes, length_cons, ih]

lemma addrOf_addrBytes (w a : Nat) : addrOf (addrBytes w a) = a % 256 ^ w := by
  induction w with
  | zero => rw [addrBytes, addrOf, pow_zero, mod_one]
  | succ w ih =>
    rw [addrBytes, addrOf, ih, length_addrBytes, mod_pow_succ, mul_comm, add_comm]

lemma byteSum_recordBytes (t : RecordType) (addr : Nat) (data : List (BitVec 8)) :
    byteSum (recordBytes t addr data) % 256 = 255 := by
  unfold recordBytes
  rw [byteSum_append, byteSum, byteSum]
  omega

lemma recordBytes_fields (t : RecordType) (addr : Nat) (data : List (BitVec 8)) :
    ∃ ck, recordBytes t addr data = (t.width + data.length + 1)
      :: (addrBytes t.width addr ++ (data.map (·.toNat) ++ [ck])) := by
  refine ⟨255 - byteSum (recordBody t addr data) % 256, ?_⟩
  unfold recordBytes
  conv_lhs => arg 1; unfold recordBody
  rw [cons_append, append_assoc]

lemma fill_map (data : Nat → BitVec 8) (ds : List (BitVec 8)) (i : Nat) :
    fill data 0 (ds.map (·.toNat)) i = ds[i]?.getD (data i) := by
  rw [fill_apply]
  by_cases hi : i < ds.length
  · simp [hi]
  · have hout : ¬(0 ≤ i ∧ i < 0 + (ds.map (·.toNat)).length) := by
      rw [length_map]
      omega
    rw [if_neg hout, List.getElem?_eq_none (by omega)]
    rfl

-- == the result

/-- Encoded records are decoded to their type, address, data and count, in
digits of either case, whatever stands before and behind the record; and a
changed digit of the address, the data or the checksum is found. The count is
spelled in two digits, so the record has at most 255 bytes behind it. -/
theorem encoded_record_decoded (t : RecordType) (addr : Nat)
    (data : List (BitVec 8)) (haddr : addr < 256 ^ t.width)
    (digits pre post : List Char) (hs : Spells digits (recordBytes t addr data))
    (hpre : ∀ c, c ∈ pre → c ≠ 'S' ∧ c ≠ '\x00') (s : Srec) :
    (∃ s', srecDecode { s with input := pre ++ 'S' :: t.char :: (digits ++ post) }
        = ((t.code : Int), s') ∧ s'.count = data.length ∧ s'.addr = addr ∧
      ∀ i, s'.data i = data[i]?.getD (s.data i)) ∧
    (∀ k old c n n', 2 ≤ k → digits[k]? = some old → IsHex old n → IsHex c n' →
      n ≠ n' → ∃ s', srecDecode { s with input := pre ++ 'S' :: t.char :: (digits.set k c ++ post) }
        = (srecEBadchks, s')) := by
  obtain ⟨ck, hfields⟩ := recordBytes_fields t addr data
  have hsum := byteSum_recordBytes t addr data
  rw [hfields] at hs hsum
  constructor
  · obtain ⟨s', hdecode, hcount, haddr', hdata⟩ := srecDecode_spelled t
      { s with input := pre ++ 'S' :: t.char :: (digits ++ post) } hpre
      (length_addrBytes _ _) (by rw [length_map]) hs rfl
    rw [if_pos hsum] at hdecode
    refine ⟨s', hdecode, ?_, ?_, ?_⟩
    · rw [hcount, length_map]
    · rw [haddr', addrOf_addrBytes, mod_eq_of_lt haddr]
    · intro i
      rw [hdata, fill_map]
  · intro k old c n n' hk hold hn hc hne
    obtain ⟨b, hlt, hb, hdiff, hchanged⟩ := hs.set hold hn hc hne
    have hbad := byteSum_changed hlt hb (hs.lt _ (getElem_mem hlt)) hdiff hsum
    obtain ⟨i, hi⟩ : ∃ i, k / 2 = i + 1 := ⟨k / 2 - 1, by omega⟩
    rw [hi, set_cons_succ] at hchanged hbad
    -- the count stays, and so does the number of bytes behind it
    have hlen : ((addrBytes t.width addr ++ (data.map (·.toNat) ++ [ck])).set i b).length
        = t.width + data.length + 1 := by
      simp only [length_set, length_append, length_map, length_addrBytes, length_cons, length_nil]
      omega
    rw [← hlen] at hchanged hbad
    obtain ⟨s', hdecode⟩ := srecDecode_bytes t
      { s with input := pre ++ 'S' :: t.char :: (digits.set k c ++ post) } hpre
      (by omega) hchanged rfl
    rw [if_neg hbad] at hdecode
    exact ⟨s', hdecode⟩

instance (c : Char) (n : Nat) : Decidable (IsHex c n) := inferInstanceAs (Decidable (_ ∨ _))

/-- The record `S10410002Ac1`: a byte for address 4096. -/
theorem oneByte_decoded :
    ∃ s', srecDecode ⟨"S10410002Ac1".toList, 0, 0, fun _ => 0, 0⟩ = (1, s') ∧
      s'.count = 1 ∧ s'.addr = 0x1000 ∧ s'.data 0 = 0x2a := by
  have hspell : Spells "0410002Ac1".toList (recordBytes .data2 0x1000 [0x2a]) :=
    .cons (h := 0) (l := 4) (by decide) (by decide) (.cons (h := 1) (l := 0) (by decide) (by decide)
        (.cons (h := 0) (l := 0) (by decide) (by decide)
          (.cons (h := 2) (l := 10) (by decide) (by decide)
            (.cons (h := 12) (l := 1) (by decide) (by decide) .nil))))
  obtain ⟨s', hdecode, hcount, haddr, hdata⟩ :=
    (encoded_record_decoded .data2 0x1000 [0x2a] (by decide) _ [] [] hspell
      (by simp) ⟨[], 0, 0, fun _ => 0, 0⟩).1
  exact ⟨s', hdecode, hcount, haddr, hdata 0⟩

end BoardStack.SRecord
