/-
Devices and partitions of the boot loader, and the string that describes them
(`generate_mtdparts`): common/cmd_jffs2.c.

A partition or a device that was allocated is told from others by its address
`link`. A list of the source is the list of its entries, and `unsigned long`
has 32 bits. The environment variables that `current_save` and
`index_partitions` set, and the output, are left out.

The string is put together from pieces, each charged against what is left of the
buffer before it is written. The nine characters `mtdparts=` in front are written
but not charged, so up to nine bytes can go behind the buffer; this happens if
the string breaks off, or ends, in the wrong place.
-/
import Mathlib.Data.List.Basic
import BoardStack.Base.Bytes

namespace BoardStack.Mtdparts

/-- `MTD_DEV_TYPE_NOR` and `MTD_DEV_TYPE_NAND`. -/
inductive DevType
  | nor
  | nand
deriving DecidableEq, Repr

structure MtdIds where
  type : DevType
  num : Nat
  size : Nat
  mtdId : List UInt8
deriving DecidableEq, Repr

/-- `struct part_info`, without what jffs2 uses. -/
structure PartInfo where
  link : Nat
  name : List UInt8
  autoName : Bool
  size : Nat
  offset : Nat
  maskFlags : Nat
  dev : Nat
deriving DecidableEq, Repr

structure MtdDevice where
  link : Nat
  id : MtdIds
  numParts : Nat
  parts : List PartInfo
deriving DecidableEq, Repr

/-- `devices`, `current_dev` and `current_partnum`. -/
structure State where
  devices : List MtdDevice
  currentDev : Option Nat
  currentPartnum : Nat
deriving DecidableEq, Repr

/-- The chips: the erase size of a NAND chip, the sectors and the size of a
NOR chip. -/
structure Chips where
  erasesize : Nat → Nat
  start : Nat → List Nat
  flashSize : Nat → Nat

-- == validation

def sizeRemaining : Nat := 0xFFFFFFFF

def partValidateNor (chips : Chips) (id : MtdIds) (part : PartInfo) : Bool :=
  let start := chips.start id.num
  let aligned (offset : Nat) : Bool :=
    start.any fun a => (2 ^ 32 + a - start.headD 0) % 2 ^ 32 == offset
  let endOffset := (part.offset + part.size) % 2 ^ 32
  aligned part.offset && (aligned endOffset || chips.flashSize id.num == endOffset)

def partValidateNand (chips : Chips) (id : MtdIds) (part : PartInfo) : Bool :=
  part.offset % chips.erasesize id.num == 0 && part.size % chips.erasesize id.num == 0

/-- `part_validate`: the partition as it is accepted. -/
def partValidate (chips : Chips) (id : MtdIds) (part : PartInfo) : Option PartInfo :=
  let part := if part.size = sizeRemaining then
    { part with size := (2 ^ 32 + id.size - part.offset) % 2 ^ 32 } else part
  if id.size < part.offset then none
  else if (part.offset + part.size) % 2 ^ 32 ≤ part.offset then none
  else if id.size < (part.offset + part.size) % 2 ^ 32 then none
  else
    let valid := match id.type with
      | .nand => partValidateNand chips id part
      | .nor => partValidateNor chips id part
    if valid then some part else none

-- == the list of devices

def jffs2PartInfo (dev : MtdDevice) (partNum : Nat) : Option PartInfo :=
  if dev.numParts ≤ partNum then none else dev.parts[partNum]?

def State.device (s : State) (link : Nat) : Option MtdDevice :=
  s.devices.find? fun d => d.link == link

def State.setDevice (s : State) (dev : MtdDevice) : State :=
  { s with
    devices := s.devices.map fun d => if d.link = dev.link then dev else d }

/-- The current partition, if `dev` is the current device. -/
def State.currentOn (s : State) (dev : MtdDevice) : Option PartInfo :=
  if s.currentDev = some dev.link then jffs2PartInfo dev s.currentPartnum
  else none

/-- The loop of `part_sort_add`: the list with the partition in it, and the
partition it was put in front of. There is only one partition at offset
zero. -/
def sortInsert (new : PartInfo) : List PartInfo → Option (List PartInfo × Option PartInfo)
  | [] => some ([new], none)
  | pi :: rest =>
    if new.offset = pi.offset ∧ pi.offset = 0 then none
    else if new.offset ≤ pi.offset then some (new :: pi :: rest, some pi)
    else (sortInsert new rest).map fun r => (pi :: r.1, r.2)

/-- Whether an insertion in front of `pi` moves the current partition. -/
def movesCurrent (curr pi : Option PartInfo) : Bool :=
  match curr, pi with
  | some curr, some pi => pi.offset ≤ curr.offset
  | _, _ => false

/-- `part_sort_add`; nothing is added if it returns 1. -/
def partSortAdd (s : State) (dev : MtdDevice) (part : PartInfo) : Option State :=
  -- link partition to parent dev
  (sortInsert { part with dev := dev.link } dev.parts).map fun r =>
    { s.setDevice { dev with
          parts := r.1
          numParts := (dev.numParts + 1) % 2 ^ 16 } with
      currentPartnum :=
        if movesCurrent (s.currentOn dev) r.2 then
          (s.currentPartnum + 1) % 2 ^ 8
        else s.currentPartnum }

def partAdd (chips : Chips) (s : State) (dev : MtdDevice) (part : PartInfo) : Option State :=
  (partValidate chips dev.id part).bind (partSortAdd s dev)

def deviceDel (s : State) (dev : MtdDevice) : State :=
  let s' := { s with devices := s.devices.filter fun d => d.link != dev.link }
  if s.currentDev = some dev.link then
    match s'.devices with
    | [] => { s' with currentDev := none }
    | first :: _ =>
      { s' with currentDev := some first.link, currentPartnum := 0 }
  else s'

/-- What `part_del` makes of `current_partnum`. -/
def partnumAfterDel (curr : Option PartInfo) (part : PartInfo) (partnum : Nat) : Nat :=
  match curr with
  | none => partnum
  | some curr =>
    if curr.link = part.link then 0
    else if part.offset ≤ curr.offset then (partnum + 2 ^ 8 - 1) % 2 ^ 8
    else partnum

def partDel (s : State) (dev : MtdDevice) (part : PartInfo) : State :=
  if dev.numParts = 1 then deviceDel s dev
  else
    { s.setDevice { dev with
          parts := dev.parts.eraseP fun p => p.link == part.link
          numParts := (dev.numParts + 2 ^ 16 - 1) % 2 ^ 16 } with
      currentPartnum := partnumAfterDel (s.currentOn dev) part s.currentPartnum }

open Base Function List

-- == the code

def chars (s : String) : List UInt8 := s.toList.map fun c => UInt8.ofNat c.toNat

/-- `%lu`. -/
def decimal (n : Nat) : List UInt8 := (Nat.toDigits 10 n).map fun c => UInt8.ofNat c.toNat

def memsizeFormat (size : Nat) : List UInt8 :=
  if size % (1024 * 1024 * 1024) = 0 then
    decimal (size / (1024 * 1024 * 1024)) ++ chars "g"
  else if size % (1024 * 1024) = 0 then
    decimal (size / (1024 * 1024)) ++ chars "m"
  else if size % 1024 = 0 then decimal (size / 1024) ++ chars "k"
  else decimal size

/-- The buffer, `p` and `maxlen`. -/
structure Out where
  buf : Mem
  p : Nat
  maxlen : Nat

/-- Write a piece if it fits, or go to `cleanup`. -/
def put (text : List UInt8) (o : Out) : Except Out Out :=
  if text.length > o.maxlen then .error o
  else .ok ⟨write o.buf o.p text, o.p + text.length, o.maxlen - text.length⟩

def putIf (b : Bool) (text : List UInt8) (o : Out) : Except Out Out :=
  if b then put text o else pure o

def gap (prevPart : Option PartInfo) (part : PartInfo) : Bool :=
  match prevPart with
  | none => part.offset != 0
  | some prev => (prev.offset + prev.size) % 2 ^ 32 != part.offset

def formatPart (dev : MtdDevice) (prevPart : Option PartInfo) (partCnt : Nat)
    (part : PartInfo) (o : Out) : Except Out Out := do
  let o ← put (memsizeFormat part.size) o
  let o ← putIf (gap prevPart part) (chars "@" ++ memsizeFormat part.offset) o
  -- the name only if the user supplied it
  let o ← putIf (!part.autoName) (chars "(" ++ part.name ++ chars ")") o
  -- `part->mask_flags && MTD_WRITEABLE_CMD`
  let o ← putIf (part.maskFlags != 0) (chars "ro") o
  putIf (dev.numParts > partCnt) (chars ",") o

def formatParts (dev : MtdDevice) : Option PartInfo → Nat → List PartInfo → Out → Except Out Out
  | _, _, [], o => pure o
  | prevPart, partCnt, part :: parts, o => do
    let o ← formatPart dev prevPart (partCnt + 1) part o
    formatParts dev (some part) (partCnt + 1) parts o

def formatDevices : List MtdDevice → Out → Except Out Out
  | [], o => pure o
  | dev :: devices, o => do
    let o ← put (dev.id.mtdId ++ chars ":") o
    let o ← formatParts dev none 0 dev.parts o
    let o ← putIf (!devices.isEmpty) (chars ";") o
    formatDevices devices o

/-- What `generate_mtdparts` returns, the buffer, and whether `last_parts` is
cleared. -/
structure Generated where
  ret : Int
  buf : Mem
  lastPartsCleared : Bool

def generateMtdparts (devices : List MtdDevice) (buf : Mem) (buflen : Nat) :
    Generated :=
  if devices = [] then ⟨0, update buf 0 0, false⟩
  else
    let o : Out := ⟨write buf 0 (chars "mtdparts=" ++ [0]), 9, buflen - 1⟩
    match formatDevices devices o with
    | .error o => ⟨1, o.buf, true⟩
    | .ok o => ⟨0, update o.buf o.p 0, false⟩

-- == the pieces

def pieceIf (b : Bool) (text : List UInt8) : List (List UInt8) :=
  if b then [text] else []

def partPieces (dev : MtdDevice) (prevPart : Option PartInfo) (partCnt : Nat)
    (part : PartInfo) : List (List UInt8) :=
  [memsizeFormat part.size] ++ pieceIf (gap prevPart part) (chars "@" ++ memsizeFormat part.offset)
    ++ pieceIf (!part.autoName) (chars "(" ++ part.name ++ chars ")")
    ++ pieceIf (part.maskFlags != 0) (chars "ro")
    ++ pieceIf (dev.numParts > partCnt) (chars ",")

def partsPieces (dev : MtdDevice) : Option PartInfo → Nat → List PartInfo → List (List UInt8)
  | _, _, [] => []
  | prevPart, partCnt, part :: parts =>
    partPieces dev prevPart (partCnt + 1) part ++ partsPieces dev (some part) (partCnt + 1) parts

/-- The pieces of the string behind `mtdparts=`. -/
def pieces : List MtdDevice → List (List UInt8)
  | [] => []
  | dev :: devices =>
    [dev.id.mtdId ++ chars ":"] ++ partsPieces dev none 0 dev.parts
      ++ pieceIf (!devices.isEmpty) (chars ";") ++ pieces devices

def putAll : List (List UInt8) → Out → Except Out Out
  | [], o => pure o
  | text :: rest, o => put text o >>= putAll rest

lemma putAll_append (xs ys : List (List UInt8)) (o : Out) :
    putAll (xs ++ ys) o = putAll xs o >>= putAll ys := by
  induction xs generalizing o with
  | nil => rfl
  | cons x xs ih =>
    rw [cons_append, putAll, putAll]
    cases put x o with
    | error o' => rfl
    | ok o' => exact ih o'

lemma putAll_singleton (text : List UInt8) : putAll [text] = put text := by
  funext o
  rw [putAll]
  cases put text o <;> rfl

lemma putAll_pieceIf (b : Bool) (text : List UInt8) : putAll (pieceIf b text) = putIf b text := by
  cases b with
  | false => rfl
  | true => exact putAll_singleton text

lemma formatPart_eq (dev : MtdDevice) (prevPart : Option PartInfo)
    (partCnt : Nat) (part : PartInfo) (o : Out) :
    formatPart dev prevPart partCnt part o = putAll (partPieces dev prevPart partCnt part) o := by
  unfold formatPart partPieces
  simp only [putAll_append, putAll_singleton, putAll_pieceIf, bind_assoc]

lemma formatParts_eq (dev : MtdDevice) (prevPart : Option PartInfo)
    (partCnt : Nat) (parts : List PartInfo) (o : Out) :
    formatParts dev prevPart partCnt parts o
      = putAll (partsPieces dev prevPart partCnt parts) o := by
  induction parts generalizing prevPart partCnt o with
  | nil => rfl
  | cons part parts ih =>
    rw [formatParts, partsPieces, putAll_append, formatPart_eq]
    simp only [ih]

lemma formatDevices_eq (devices : List MtdDevice) (o : Out) :
    formatDevices devices o = putAll (pieces devices) o := by
  induction devices generalizing o with
  | nil => rfl
  | cons dev devices ih =>
    rw [formatDevices, pieces]
    simp only [putAll_append, putAll_singleton, putAll_pieceIf, bind_assoc, formatParts_eq, ih]

-- == what is written

def Out.behind (o : Out) (text : List UInt8) : Out :=
  ⟨write o.buf o.p text, o.p + text.length, o.maxlen - text.length⟩

/-- The pieces in front of the first one for which the room that is left is too
short. -/
def fitting : Nat → List (List UInt8) → List UInt8
  | _, [] => []
  | maxlen, text :: rest =>
    if text.length > maxlen then [] else text ++ fitting (maxlen - text.length) rest

/-- They are written; the rest is reached only if all of them fit. -/
lemma putAll_eq (texts : List (List UInt8)) (o : Out) :
    putAll texts o = if texts.flatten.length ≤ o.maxlen
      then .ok (o.behind (fitting o.maxlen texts))
      else .error (o.behind (fitting o.maxlen texts)) := by
  induction texts generalizing o with
  | nil => simp [putAll, fitting, Out.behind, pure, Except.pure]
  | cons text rest ih =>
    rw [flatten_cons, length_append, fitting]
    by_cases hfits : text.length > o.maxlen
    · rw [if_pos hfits, if_neg (by omega), putAll, put, if_pos hfits]
      simp [Out.behind, bind, Except.bind]
    have hput : put text o = .ok (o.behind text) := by
      rw [put, if_neg hfits]
      rfl
    have hbehind : ∀ more, (o.behind text).behind more = o.behind (text ++ more) := by
      intro more
      unfold Out.behind
      rw [write_append, length_append, add_assoc, Nat.sub_sub]
    have hroom : rest.flatten.length ≤ (o.behind text).maxlen ↔
        text.length + rest.flatten.length ≤ o.maxlen := by
      dsimp only [Out.behind]
      omega
    rw [if_neg hfits, ← hbehind, putAll, hput]
    refine (ih (o.behind text)).trans ?_
    simp only [hroom]
    rfl

lemma fitting_eq_take (maxlen : Nat) (texts : List (List UInt8)) :
    ∃ k, fitting maxlen texts = (texts.take k).flatten := by
  induction texts generalizing maxlen with
  | nil => exact ⟨0, rfl⟩
  | cons text rest ih =>
    rw [fitting]
    split_ifs with hfits
    · exact ⟨0, rfl⟩
    · obtain ⟨k, hk⟩ := ih (maxlen - text.length)
      exact ⟨k + 1, by rw [hk, take_succ_cons, flatten_cons]⟩

lemma length_fitting_le (maxlen : Nat) (texts : List (List UInt8)) :
    (fitting maxlen texts).length ≤ maxlen := by
  induction texts generalizing maxlen with
  | nil => exact Nat.zero_le _
  | cons text rest ih =>
    rw [fitting]
    split_ifs with hfits
    · exact Nat.zero_le _
    · have hrest := ih (maxlen - text.length)
      rw [length_append]
      omega

lemma fitting_all {maxlen : Nat} {texts : List (List UInt8)}
    (h : texts.flatten.length ≤ maxlen) : fitting maxlen texts = texts.flatten := by
  induction texts generalizing maxlen with
  | nil => rfl
  | cons text rest ih =>
    rw [flatten_cons, length_append] at h
    rw [fitting, if_neg (by omega), ih (by omega), flatten_cons]

/-- Pieces for which there is room are among them. -/
lemma le_length_fitting {maxlen j : Nat} {texts : List (List UInt8)}
    (h : (texts.take j).flatten.length ≤ maxlen) :
    (texts.take j).flatten.length ≤ (fitting maxlen texts).length := by
  induction texts generalizing maxlen j with
  | nil => simp
  | cons text rest ih =>
    cases j with
    | zero => exact Nat.zero_le _
    | succ j =>
      rw [take_succ_cons, flatten_cons, length_append] at h ⊢
      rw [fitting, if_neg (by omega), length_append]
      have hrest : (rest.take j).flatten.length ≤ (fitting (maxlen - text.length) rest).length :=
        ih (by omega)
      omega

-- == the result

/-- The buffer behind `mtdparts=`. -/
lemma generateMtdparts_buf {devices : List MtdDevice} (hne : devices ≠ []) (buf : Mem)
    (buflen : Nat) :
    let text := fitting (buflen - 1) (pieces devices)
    let written := write (write buf 0 (chars "mtdparts=" ++ [0])) 9 text
    (generateMtdparts devices buf buflen).buf =
      if (pieces devices).flatten.length ≤ buflen - 1 then update written (9 + text.length) 0
      else written := by
  dsimp only
  rw [generateMtdparts, if_neg hne]
  dsimp only
  rw [formatDevices_eq, putAll_eq]
  dsimp only
  split_ifs <;> rfl

/-- A piece that ends behind the buffer is in memory behind it. -/
lemma exists_written {devices : List MtdDevice} {buflen j : Nat} (hlen : 10 ≤ buflen)
    (hj : ((pieces devices).take j).flatten.length < buflen)
    (hout : buflen < 9 + ((pieces devices).take j).flatten.length) :
    ∃ b, ∀ buf, (generateMtdparts devices buf buflen).buf buflen = b := by
  have hne : devices ≠ [] := by
    rintro rfl
    simp [pieces] at hout
    omega
  have hin := le_length_fitting (Nat.le_sub_one_of_lt hj)
  have hat : buflen - 9 < (fitting (buflen - 1) (pieces devices)).length := by omega
  refine ⟨(fitting (buflen - 1) (pieces devices))[buflen - 9], fun buf => ?_⟩
  have hwrite := write_getElem? (m := write buf 0 (chars "mtdparts=" ++ [0])) (a := 9)
    (List.getElem?_eq_getElem hat)
  rw [show 9 + (buflen - 9) = buflen by omega] at hwrite
  rw [generateMtdparts_buf hne]
  split_ifs
  · rw [update_of_ne (by omega), hwrite]
  · exact hwrite

/-- The buffer is not left if and only if no piece ends in its last nine bytes,
counted without `mtdparts=`; the last one must not end right in front of them
either, where the null character goes. -/
theorem generateMtdparts_inside_iff (devices : List MtdDevice) (buflen : Nat)
    (hlen : 10 ≤ buflen) :
    (∀ buf i, buflen ≤ i → (generateMtdparts devices buf buflen).buf i = buf i) ↔
      (∀ k, ((pieces devices).take k).flatten.length < buflen →
        9 + ((pieces devices).take k).flatten.length ≤ buflen) ∧
      9 + (pieces devices).flatten.length ≠ buflen := by
  constructor
  · intro hinside
    -- the byte behind the end would be the same whatever memory held before
    have hno : ¬ ∃ b, ∀ buf, (generateMtdparts devices buf buflen).buf buflen = b := by
      rintro ⟨b, hb⟩
      have hzero := (hb fun _ => 0).symm.trans (hinside _ buflen le_rfl)
      have hone := (hb fun _ => 1).symm.trans (hinside _ buflen le_rfl)
      exact absurd (hzero.symm.trans hone) (by decide)
    refine ⟨fun j hj => ?_, fun hend => hno ⟨0, fun buf => ?_⟩⟩
    · by_contra hout
      exact hno (exists_written hlen hj (not_le.mp hout))
    · have hne : devices ≠ [] := by
        rintro rfl
        simp [pieces] at hend
        omega
      rw [generateMtdparts_buf hne, if_pos (by omega), fitting_all (by omega), hend, update_self]
  · rintro ⟨hgap, hend⟩ buf i hi
    by_cases hne : devices = []
    · rw [generateMtdparts, if_pos hne]
      exact update_of_ne (by omega) _ _
    have hprefix : write buf 0 (chars "mtdparts=" ++ [0]) i = buf i := by
      apply write_of_outside
      right
      exact le_trans hlen hi
    obtain ⟨k, hk⟩ := fitting_eq_take (buflen - 1) (pieces devices)
    have hle := length_fitting_le (buflen - 1) (pieces devices)
    have hroom := hgap k (by rw [← hk]; omega)
    rw [← hk] at hroom
    rw [generateMtdparts_buf hne]
    split_ifs with hall
    · rw [fitting_all hall] at hroom ⊢
      rw [update_of_ne (by omega), write_of_outside (by omega), hprefix]
    · rw [write_of_outside (by omega), hprefix]

def bareDevice (mtdId : String) : MtdDevice := ⟨1, ⟨.nor, 0, 0, chars mtdId⟩, 0, []⟩

theorem nor0_inside : (generateMtdparts [bareDevice "nor0"] (fun _ => 1) 16).buf 16 = 1 := by
  refine (generateMtdparts_inside_iff [bareDevice "nor0"] 16 (by decide)).mpr ⟨fun k _ => ?_, ?_⟩
    (fun _ => 1) 16 le_rfl
  · cases k with
    | zero => decide
    | succ k =>
      have hall : (pieces [bareDevice "nor0"]).take (k + 1) = pieces [bareDevice "nor0"] := by
        apply take_of_length_le
        exact Nat.le_add_left 1 k
      rw [hall]
      decide
  · decide

/-- An id of eight characters goes behind a buffer of ten bytes, which has ten
bytes for `mtdparts=` and its null character. -/
theorem eight_characters_overrun :
    (generateMtdparts [bareDevice "physmap0"] (fun _ => 1) 10).ret = 0 ∧
    (generateMtdparts [bareDevice "physmap0"] (fun _ => 1) 10).buf 10 = 104 ∧
    (generateMtdparts [bareDevice "physmap0"] (fun _ => 1) 10).buf 18 = 0 := by
  decide

end BoardStack.Mtdparts
