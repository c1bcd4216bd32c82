/-
The TFTP client of the boot loader: net/tftp.c, and a server that sends a file
to it.

The client is modelled without multicast and without writing to flash, on a
machine with an `unsigned long` of 32 bits. A packet is what the handler gets
of it: the two ports and the bytes, and a NUL is read behind them. Of what the
client sends, the acknowledgements are kept. Timeouts, which only send the
last packet again or start over, are left out, as is the output to the
console; `NetStartAgain` leaves the client in a state of its own.

`Received` is the state of a client after the first `n` blocks have arrived:
what it has stored is the beginning of the file. The sequence numbers of the
blocks wrap, and so does the arithmetic on offsets, but together they give
the place of a block (`offset_eq`) as long as the client counts every wrap
once. It counts one whenever a block with sequence number 0 arrives, before it
looks whether it has that block; so this is proved for runs in which no such
block arrives again, and fails in others.
-/
import BoardStack.Vsprintf.Basic
import BoardStack.Base.Run
import Mathlib.Data.Nat.ModEq

namespace BoardStack.Tftp

open Vsprintf (isdigit isxdigit charAt lit)

-- == the client

/-- `STATE_RRQ`, .., `STATE_OACK`. -/
inductive State
  | rrq
  | data
  | tooLarge
  | badMagic
  | oack
deriving DecidableEq, Repr

/-- `NetState`, and that the transfer starts again. -/
inductive NetState
  | continue
  | success
  | startAgain
deriving DecidableEq, Repr

/-- The static variables of the client, memory, `load_addr`,
`NetBootFileXferSize`, and the blocks that were acknowledged. -/
structure Client where
  serverPort : Nat
  ourPort : Nat
  block : Nat
  lastBlock : Nat
  blockWrap : Nat
  blockWrapOffset : Nat
  state : State
  blkSize : Nat
  loadAddr : Nat
  mem : Nat → UInt8
  xferSize : Nat
  netState : NetState
  acks : List Nat

def wellKnownPort : Nat := 69

def tftpBlockSize : Nat := 512

def tftpSequenceSize : Nat := 65536

/-- `TftpStart`, on what an earlier transfer has left. -/
def tftpStart (c : Client) (ourPort : Nat) : Client :=
  { c with
    serverPort := wellKnownPort
    state := .rrq
    ourPort := ourPort
    block := 0
    blkSize := tftpBlockSize
    xferSize := 0
    netState := .continue
    acks := [] }

structure Packet where
  dest : Nat
  src : Nat
  bytes : List UInt8

/-- `ntohs(*(ushort *)pkt)`. -/
def ntohs (pkt : List UInt8) : Nat := 256 * (charAt pkt 0).toNat + (charAt pkt 1).toNat

/-- The loop of `simple_strtoul`. -/
def strtoulLoop (base : Nat) : List UInt8 → Nat → Nat
  | [], result => result
  | c :: cp, result =>
    let value := if isdigit c then c.toNat - '0'.toNat
      else (if 0x61 ≤ c && c ≤ 0x7a then c - 0x20 else c).toNat - 'A'.toNat + 10
    if isxdigit c && value < base then
      strtoulLoop base cp ((result * base + value) % 2 ^ 32)
    else result

/-- `simple_strtoul(cp, NULL, 10)`, which takes "0x" for hexadecimal. -/
def simpleStrtoul (cp : List UInt8) : Nat :=
  if charAt cp 0 = '0'.toUInt8 then
    if charAt cp 1 = 'x'.toUInt8 && isxdigit (charAt cp 2) then
      strtoulLoop 16 (cp.drop 2) 0
    else strtoulLoop 10 (cp.drop 1) 0
  else strtoulLoop 10 cp 0

/-- Check for the "blksize" option: `for (i=0; i+8<len; i++)`. -/
def blksizeOption (blkSize : Nat) : List UInt8 → Nat
  | [] => blkSize
  | c :: pkt =>
    if 8 < (c :: pkt).length then
      if (c :: pkt).take 8 = lit "blksize" ++ [0] then
        simpleStrtoul ((c :: pkt).drop 8) % 2 ^ 16
      else blksizeOption blkSize pkt
    else blkSize

/-- `TftpSend` in the states that acknowledge. -/
def Client.send (c : Client) : Client := { c with acks := c.acks ++ [c.block % 2 ^ 16] }

def memcpy (mem : Nat → UInt8) (dst : Nat) (src : List UInt8) : Nat → UInt8 :=
  fun a => if dst ≤ a then (src[a - dst]?).getD (mem a) else mem a

def Client.storeBlock (c : Client) (block : Nat) (src : List UInt8) : Client :=
  let offset := (block * c.blkSize + c.blockWrapOffset) % 2 ^ 32
  let newsize := (offset + src.length) % 2 ^ 32
  { c with
    mem := memcpy c.mem ((c.loadAddr + offset) % 2 ^ 32) src
    xferSize := if c.xferSize < newsize then newsize else c.xferSize }

/-- A block, unless it is the last one again. -/
def Client.accept (c : Client) (data : List UInt8) : Client :=
  if c.block = c.lastBlock then c
  else
    let c := { c with lastBlock := c.block }
    let c := c.storeBlock ((2 ^ 32 + c.block - 1) % 2 ^ 32) data
    let c := c.send
    if data.length < c.blkSize then { c with netState := .success } else c

/-- The sequence number of a packet, and that it wraps. -/
def Client.number (c : Client) (block : Nat) : Client :=
  if block = 0 then
    { c with
      block := block
      blockWrap := (c.blockWrap + 1) % 2 ^ 32
      blockWrapOffset := (c.blockWrapOffset + c.blkSize * tftpSequenceSize) % 2 ^ 32 }
  else { c with block := block }

def Client.first (c : Client) (src : Nat) : Client :=
  { c with
    state := .data
    serverPort := src
    lastBlock := 0
    blockWrap := 0
    blockWrapOffset := 0 }

/-- `case TFTP_DATA`. -/
def Client.data (c : Client) (src : Nat) (pkt : List UInt8) : Client :=
  if pkt.length < 2 then c
  else
    let c := c.number (ntohs pkt)
    if c.state = .rrq ∨ c.state = .oack then
      let c := c.first src
      if c.block ≠ 1 then { c with netState := .startAgain }
      else c.accept (pkt.drop 2)
    else c.accept (pkt.drop 2)

/-- `case TFTP_OACK`. -/
def Client.oack (c : Client) (src : Nat) (pkt : List UInt8) : Client :=
  { c with
    state := .oack
    serverPort := src
    blkSize := blksizeOption c.blkSize pkt }.send

def tftpHandler (c : Client) (p : Packet) : Client :=
  if p.dest ≠ c.ourPort then c
  else if c.state ≠ .rrq ∧ p.src ≠ c.serverPort then c
  else if p.bytes.length < 2 then c
  else
    let pkt := p.bytes.drop 2
    if ntohs p.bytes = 6 then c.oack p.src pkt
    else if ntohs p.bytes = 3 then c.data p.src pkt
    else if ntohs p.bytes = 5 then { c with netState := .startAgain }
    else c

-- == the server

/-- The number of data blocks of a file: the last one is not full. -/
def blocks (file : List UInt8) (blkSize : Nat) : Nat := file.length / blkSize + 1

def blockData (file : List UInt8) (blkSize n : Nat) : List UInt8 :=
  (file.drop ((n - 1) * blkSize)).take blkSize

/-- The packet of a block, with its number modulo 2^16. -/
def blockPacket (file : List UInt8) (blkSize ourPort port n : Nat) : Packet where
  dest := ourPort
  src := port
  bytes := [0, 3, UInt8.ofNat (n % 65536 / 256), UInt8.ofNat (n % 65536 % 256)]
    ++ blockData file blkSize n

/-- A transfer: the client, and the latest block the server has sent. -/
structure System where
  client : Client
  sent : Nat

/-- What can happen: the server, having got the acknowledgement of its block,
sends the next one and it arrives; or the latest block arrives once more. -/
inductive Event
  | next
  | again
deriving DecidableEq, Repr

/-- The blocks that may arrive more than once are `repeatable`. -/
def step (file : List UInt8) (blkSize port : Nat) (repeatable : Nat → Bool)
    (s : System) : Event → Option System
  | .next =>
    if s.sent < blocks file blkSize ∧
        (s.sent = 0 ∨ s.client.acks.getLast? = some (s.sent % 65536)) then
      some ⟨tftpHandler s.client (blockPacket file blkSize s.client.ourPort port (s.sent + 1)),
        s.sent + 1⟩
    else none
  | .again =>
    if 0 < s.sent ∧ repeatable s.sent then
      some ⟨tftpHandler s.client (blockPacket file blkSize s.client.ourPort port s.sent), s.sent⟩
    else none

/-- A client that is ready for data: it has sent its request, and the server
may have answered with options from the port it sends data from. -/
inductive Requested (c₀ : Client) (ourPort port : Nat) : Client → Prop
  | start : Requested c₀ ourPort port (tftpStart c₀ ourPort)
  | oack {c : Client} {options : List UInt8} : Requested c₀ ourPort port c →
      Requested c₀ ourPort port (tftpHandler c ⟨ourPort, port, [0, 6] ++ options⟩)

open Base List Option Nat

variable {file : List UInt8} {c₀ c : Client} {ourPort port blk load n : Nat}
variable {repeatable : Nat → Bool} {s s' : System}

-- == requests

lemma not_lt_two (x y : UInt8) (l : List UInt8) : ¬([x, y] ++ l).length < 2 := by
  rw [length_append]
  exact not_lt.mpr (Nat.le_add_right 2 _)

/-- A client that waits for the first block. -/
structure Waiting (ourPort port load : Nat) (c : Client) : Prop where
  state : c.state = .rrq ∨ c.state = .oack ∧ c.serverPort = port
  ourPort : c.ourPort = ourPort
  loadAddr : c.loadAddr = load
  size : c.xferSize = 0
  net : c.netState = .continue

lemma Requested.waiting (h : Requested c₀ ourPort port c) : Waiting ourPort port c₀.loadAddr c := by
  induction h with
  | start => exact ⟨.inl rfl, rfl, rfl, rfl, rfl⟩
  | @oack c options _ ih =>
    have hport : ¬(c.state ≠ .rrq ∧ port ≠ c.serverPort) := by
      rintro ⟨hstate, hne⟩
      rcases ih.state with hrrq | ⟨-, hport⟩
      · exact hstate hrrq
      · exact hne hport.symm
    have hcode : ntohs ([0, 6] ++ options) = 6 := rfl
    unfold tftpHandler
    rw [if_neg (not_not_intro ih.ourPort.symm), if_neg hport,
      if_neg (not_lt_two _ _ options), hcode, if_pos rfl]
    exact ⟨.inr ⟨rfl, rfl⟩, ih.ourPort, ih.loadAddr, ih.size, ih.net⟩

-- == blocks

/-- The first `n` blocks have arrived. -/
structure Received (file : List UInt8) (ourPort port blk load : Nat)
    (c : Client) (n : Nat) : Prop where
  state : c.state = .data
  serverPort : c.serverPort = port
  ourPort : c.ourPort = ourPort
  blkSize : c.blkSize = blk
  loadAddr : c.loadAddr = load
  block : c.block = n % 65536
  last : c.lastBlock = n % 65536
  wrap : c.blockWrapOffset = n / 65536 * 65536 * blk % 2 ^ 32
  bytes : ∀ i b, i < n * blk → file[i]? = some b → c.mem (load + i) = b
  size : c.xferSize = min (n * blk) file.length
  net : c.netState = if file.length < n * blk then .success else .continue
  acked : c.acks.getLast? = some (n % 65536)

lemma offset_eq (h : n * blk < 2 ^ 32) :
    ((2 ^ 32 + (n + 1) % 65536 - 1) % 2 ^ 32 * blk
      + (n + 1) / 65536 * 65536 * blk % 2 ^ 32) % 2 ^ 32 = n * blk := by
  have hsplit : 2 ^ 32 + (n + 1) % 65536 - 1 + (n + 1) / 65536 * 65536 = 2 ^ 32 + n := by omega
  calc _ = ((2 ^ 32 + (n + 1) % 65536 - 1) * blk + (n + 1) / 65536 * 65536 * blk) % 2 ^ 32 :=
        ModEq.add (ModEq.mul_right blk (mod_modEq _ _)) (mod_modEq _ _)
    _ = (2 ^ 32 * blk + n * blk) % 2 ^ 32 := by
        rw [← add_mul, hsplit, add_mul]
    _ = n * blk := by
        rw [mul_add_mod, mod_eq_of_lt h]

lemma blockData_length (file : List UInt8) (blk n : Nat) :
    (blockData file blk (n + 1)).length = min blk (file.length - n * blk) := by
  unfold blockData
  rw [length_take, length_drop, Nat.add_sub_cancel]

lemma blockData_getElem? {i : Nat} (hlo : n * blk ≤ i) (hhi : i < (n + 1) * blk) :
    (blockData file blk (n + 1))[i - n * blk]? = file[i]? := by
  rw [succ_mul] at hhi
  unfold blockData
  rw [List.getElem?_take_of_lt (by omega), List.getElem?_drop,
    Nat.add_sub_cancel, Nat.add_sub_cancel' hlo]

/-- A new block is stored in its place. -/
theorem accept_next (hfits : load + file.length < 2 ^ 32) (hn : n * blk ≤ file.length)
    (hstate : c.state = .data) (hserver : c.serverPort = port) (hour : c.ourPort = ourPort)
    (hblk : c.blkSize = blk) (hload : c.loadAddr = load) (hblock : c.block = (n + 1) % 65536)
    (hlast : c.lastBlock = n % 65536)
    (hwrap : c.blockWrapOffset = (n + 1) / 65536 * 65536 * blk % 2 ^ 32)
    (hbytes : ∀ i b, i < n * blk → file[i]? = some b → c.mem (load + i) = b)
    (hsize : c.xferSize = n * blk) (hnet : c.netState = .continue) :
    Received file ourPort port blk load (c.accept (blockData file blk (n + 1))) (n + 1) := by
  have hlen := blockData_length file blk n
  have hoffset : ((2 ^ 32 + c.block - 1) % 2 ^ 32 * c.blkSize
      + c.blockWrapOffset) % 2 ^ 32 = n * blk := by
    rw [hblock, hblk, hwrap]
    exact offset_eq (by omega)
  have hmul : (n + 1) * blk = n * blk + blk := succ_mul n blk
  have hne : c.block ≠ c.lastBlock := by
    omega
  have hdst : (load + n * blk) % 2 ^ 32 = load + n * blk := mod_eq_of_lt (by omega)
  have hnew : (n * blk + (blockData file blk (n + 1)).length) % 2 ^ 32
      = min ((n + 1) * blk) file.length := by
    omega
  have hmem : ∀ i b, i < (n + 1) * blk → file[i]? = some b →
      memcpy c.mem (load + n * blk) (blockData file blk (n + 1)) (load + i) = b := by
    intro i b hi hb
    unfold memcpy
    by_cases hlo : n * blk ≤ i
    · rw [if_pos (by omega), show load + i - (load + n * blk) = i - n * blk by
        omega, blockData_getElem? hlo hi, hb, getD_some]
    · rw [if_neg (by omega)]
      exact hbytes i b (by omega) hb
  have hxfer : (if n * blk < min ((n + 1) * blk) file.length then
      min ((n + 1) * blk) file.length else n * blk)
      = min ((n + 1) * blk) file.length := by
    split_ifs with hlt
    · rfl
    · omega
  have hblock16 : (n + 1) % 65536 % 2 ^ 16 = (n + 1) % 65536 := mod_mod _ _
  unfold Client.accept
  rw [if_neg hne]
  dsimp only [Client.storeBlock, Client.send]
  rw [hoffset, hload, hdst, hnew, hsize, hxfer]
  split_ifs with hshort
  · have hend : file.length < (n + 1) * blk := by
      omega
    exact ⟨hstate, hserver, hour, hblk, rfl, hblock, hblock, hwrap, hmem, rfl,
      (if_pos hend).symm, by rw [List.getLast?_concat, hblock, hblock16]⟩
  · have hmore : ¬file.length < (n + 1) * blk := by
      omega
    exact ⟨hstate, hserver, hour, hblk, rfl, hblock, hblock, hwrap, hmem, rfl,
      hnet.trans (if_neg hmore).symm, by rw [List.getLast?_concat, hblock, hblock16]⟩

-- == the handler

lemma ntohs_ofNat {m : Nat} (hm : m < 65536) (rest : List UInt8) :
    ntohs ([UInt8.ofNat (m / 256), UInt8.ofNat (m % 256)] ++ rest) = m := by
  have hhi : (UInt8.ofNat (m / 256)).toNat = m / 256 :=
    UInt8.toNat_ofNat_of_lt' (show m / 256 < 256 by omega)
  have hlo : (UInt8.ofNat (m % 256)).toNat = m % 256 :=
    UInt8.toNat_ofNat_of_lt' (mod_lt m (by decide))
  change 256 * (UInt8.ofNat (m / 256)).toNat + (UInt8.ofNat (m % 256)).toNat = m
  omega

lemma tftpHandler_block (hour : c.ourPort = ourPort)
    (hport : c.state = .rrq ∨ c.serverPort = port) (m : Nat) :
    tftpHandler c (blockPacket file blk ourPort port m) = if (c.number (m % 65536)).state = .rrq ∨
            (c.number (m % 65536)).state = .oack then
          if ((c.number (m % 65536)).first port).block ≠ 1 then
            { (c.number (m % 65536)).first port with netState := .startAgain }
          else ((c.number (m % 65536)).first port).accept (blockData file blk m)
        else (c.number (m % 65536)).accept (blockData file blk m) := by
  have hsrc : ¬(c.state ≠ .rrq ∧ port ≠ c.serverPort) := by
    rintro ⟨hstate, hne⟩
    exact hport.elim hstate fun h => hne h.symm
  have hdest : ¬(blockPacket file blk ourPort port m).dest ≠ c.ourPort := not_not_intro hour.symm
  have hlong : ¬(blockPacket file blk ourPort port m).bytes.length < 2 := by
    change ¬(blockData file blk m).length + 4 < 2
    omega
  have hcode : ntohs (blockPacket file blk ourPort port m).bytes = 3 := rfl
  have hdrop : (blockPacket file blk ourPort port m).bytes.drop 2
      = [UInt8.ofNat (m % 65536 / 256), UInt8.ofNat (m % 65536 % 256)]
        ++ blockData file blk m := rfl
  unfold tftpHandler
  rw [if_neg hdest, if_neg (by exact hsrc), if_neg hlong, hcode, hdrop]
  rw [if_neg (by decide), if_pos rfl]
  unfold Client.data
  rw [if_neg (not_lt_two _ _ _), ntohs_ofNat (mod_lt m (by decide))]
  rfl

@[simp] lemma number_state (c : Client) (m : Nat) : (c.number m).state = c.state := by
  unfold Client.number
  split_ifs <;> rfl

lemma handler_first (hfits : load + file.length < 2 ^ 32)
    (h : Waiting ourPort port load c) (hblk : c.blkSize = blk) :
    Received file ourPort port blk load
      (tftpHandler c (blockPacket file blk ourPort port 1)) 1 := by
  have hport : c.state = .rrq ∨ c.serverPort = port := h.state.imp_right And.right
  rw [tftpHandler_block h.ourPort hport, number_state,
    if_pos (h.state.imp_right And.left), if_neg (by exact not_not_intro rfl)]
  apply accept_next hfits (n := 0) (by omega)
  · rfl
  · rfl
  · exact h.ourPort
  · exact hblk
  · exact h.loadAddr
  · rfl
  · rfl
  · change 0 = 0 * 65536 * blk % 2 ^ 32
    rw [Nat.zero_mul, zero_mod]
  · intro i b hi
    omega
  · exact h.size.trans (Nat.zero_mul blk).symm
  · exact h.net

lemma number_wrap (h : Received file ourPort port blk load c n) :
    (c.number ((n + 1) % 65536)).blockWrapOffset = (n + 1) / 65536 * 65536 * blk % 2 ^ 32 := by
  unfold Client.number
  split_ifs with hzero
  · have hq : (n + 1) / 65536 = n / 65536 + 1 := by omega
    rw [h.wrap, h.blkSize, mod_add_mod, hq]
    refine congrArg (· % 2 ^ 32) ?_
    unfold tftpSequenceSize
    ring
  · have hq : (n + 1) / 65536 = n / 65536 := by omega
    rw [h.wrap, hq]

lemma handler_next (hfits : load + file.length < 2 ^ 32) (hn : n * blk ≤ file.length)
    (h : Received file ourPort port blk load c n) :
    Received file ourPort port blk load
      (tftpHandler c (blockPacket file blk ourPort port (n + 1))) (n + 1) := by
  have hwrap := number_wrap h
  have hsame : c.number ((n + 1) % 65536) = { c with
          block := (n + 1) % 65536
          blockWrap := (c.number ((n + 1) % 65536)).blockWrap
          blockWrapOffset := (c.number ((n + 1) % 65536)).blockWrapOffset } := by
    unfold Client.number
    split_ifs <;> rfl
  rw [tftpHandler_block h.ourPort (.inr h.serverPort), number_state,
    if_neg (by rw [h.state]; decide), hsame, hwrap]
  apply accept_next hfits hn
  · exact h.state
  · exact h.serverPort
  · exact h.ourPort
  · exact h.blkSize
  · exact h.loadAddr
  · rfl
  · exact h.last
  · rfl
  · exact h.bytes
  · exact h.size.trans (min_eq_left hn)
  · exact h.net.trans (if_neg (by omega))

/-- A block that arrives again changes nothing, unless its sequence number is
0. -/
lemma handler_again (hzero : n % 65536 ≠ 0) (h : Received file ourPort port blk load c n) :
    tftpHandler c (blockPacket file blk ourPort port n) = c := by
  have hnumber : c.number (n % 65536) = c := by
    unfold Client.number
    rw [if_neg hzero, ← h.block]
  rw [tftpHandler_block h.ourPort (.inr h.serverPort), hnumber, if_neg (by rw [h.state]; decide)]
  unfold Client.accept
  rw [if_pos (h.block.trans h.last.symm)]

-- == transfers

def Proper (file : List UInt8) (ourPort port blk load : Nat) (s : System) : Prop :=
  s.sent = 0 ∧ Waiting ourPort port load s.client ∧ s.client.blkSize = blk ∨
    0 < s.sent ∧ Received file ourPort port blk load s.client s.sent

lemma mul_le_of_lt_blocks (h : n < blocks file blk) : n * blk ≤ file.length := by
  unfold blocks at h
  calc n * blk ≤ file.length / blk * blk := Nat.mul_le_mul_right blk (by omega)
    _ ≤ file.length := div_mul_le_self _ _

lemma step_next (hfits : load + file.length < 2 ^ 32) (h : Proper file ourPort port blk load s)
    (hstep : step file blk port repeatable s .next = some s') :
    Proper file ourPort port blk load s' := by
  dsimp only [step] at hstep
  split_ifs at hstep with hcond
  obtain rfl := Option.some.inj hstep
  refine .inr ⟨succ_pos _, ?_⟩
  rcases h with ⟨hzero, hwait, hblk⟩ | ⟨-, hrec⟩
  · rw [hwait.ourPort, hzero]
    exact handler_first hfits hwait hblk
  · rw [hrec.ourPort]
    exact handler_next hfits (mul_le_of_lt_blocks hcond.1) hrec

lemma step_again (hrep : ∀ n, repeatable n = true → n % 65536 ≠ 0)
    (h : Proper file ourPort port blk load s)
    (hstep : step file blk port repeatable s .again = some s') :
    Proper file ourPort port blk load s' := by
  dsimp only [step] at hstep
  split_ifs at hstep with hcond
  obtain rfl := Option.some.inj hstep
  rcases h with ⟨hzero, -, -⟩ | ⟨-, hrec⟩
  · omega
  · refine .inr ⟨hcond.1, ?_⟩
    rw [hrec.ourPort, handler_again (hrep _ hcond.2) hrec]
    exact hrec

lemma run_proper (hfits : load + file.length < 2 ^ 32)
    (hrep : ∀ n, repeatable n = true → n % 65536 ≠ 0)
    {events : List Event} (h : Proper file ourPort port blk load s)
    (hrun : events.foldlM (step file blk port repeatable) s = some s') :
    Proper file ourPort port blk load s' := by
  refine trace_invariant (I := fun _ => Proper file ourPort port blk load) ?_ events [] s s' h hrun
  intro _ s e s' hs hstep
  cases e with
  | next => exact step_next hfits hs hstep
  | again => exact step_again hrep hs hstep

def idle : Client where
  serverPort := 0
  ourPort := 0
  block := 0
  lastBlock := 0
  blockWrap := 0
  blockWrapOffset := 0
  state := .rrq
  blkSize := 512
  loadAddr := 0
  mem := fun _ => 0
  xferSize := 0
  netState := .continue
  acks := []

/-- The file arrives. In any transfer in which no block whose number is a
multiple of 65536 arrives twice, when the client reports success the memory
at the load address holds the file, and the size is the file's. -/
theorem success_holds_file {repeatable : Nat → Bool} (hreq : Requested c₀ ourPort port c)
    (hfits : c₀.loadAddr + file.length < 2 ^ 32) (hrep : ∀ n, repeatable n = true → n % 65536 ≠ 0)
    {events : List Event} {s : System}
    (hrun : events.foldlM (step file c.blkSize port repeatable) ⟨c, 0⟩ = some s)
    (hsuccess : s.client.netState = .success) :
    (∀ i b, file[i]? = some b → s.client.mem (c₀.loadAddr + i) = b) ∧
      s.client.xferSize = file.length := by
  have hstart : Proper file ourPort port c.blkSize c₀.loadAddr ⟨c, 0⟩ :=
    .inl ⟨rfl, hreq.waiting, rfl⟩
  rcases run_proper hfits hrep hstart hrun with ⟨-, hwait, -⟩ | ⟨-, hrec⟩
  · simp [hwait.net] at hsuccess
  have hend : file.length < s.sent * c.blkSize := by
    by_contra hmore
    simp [hrec.net, if_neg hmore] at hsuccess
  refine ⟨?_, by rw [hrec.size, min_eq_right hend.le]⟩
  intro i b hb
  have hi := (List.getElem?_eq_some_iff.mp hb).1
  exact hrec.bytes i b (by omega) hb

-- The server sends the file until all is acknowledged.

lemma run_nexts (hfits : load + file.length < 2 ^ 32) (repeatable : Nat → Bool)
    (hzero : s.sent = 0) (hs : Proper file ourPort port blk load s) :
    ∀ k, k ≤ blocks file blk → ∃ s',
      (replicate k Event.next).foldlM (step file blk port repeatable) s = some s' ∧
      s'.sent = k ∧ Proper file ourPort port blk load s' := by
  intro k
  induction k with
  | zero => exact fun _ => ⟨s, rfl, hzero, hs⟩
  | succ k ih =>
    intro hk
    obtain ⟨t, hrun, hsent, ht⟩ := ih (by omega)
    have hacked : t.sent = 0 ∨ t.client.acks.getLast? = some (t.sent % 65536) := by
      rcases ht with ⟨h, -⟩ | ⟨-, hrec⟩
      · exact .inl h
      · exact .inr hrec.acked
    have hnext : step file blk port repeatable t .next = some ⟨_, _⟩ := if_pos ⟨by omega, hacked⟩
    refine ⟨_, ?_, congrArg (· + 1) hsent, step_next hfits ht hnext⟩
    rw [replicate_succ', foldlM_append, hrun, bind_eq_bind, bind_some, foldlM_cons, hnext]
    rfl

lemma blocks_wrap (hlen : file.length = 65536 * 512) : blocks file 512 = 65537 := by
  unfold blocks
  rw [hlen]

/-- A file of 65536 full blocks of 512 bytes. -/
def longFile : List UInt8 := replicate (65536 * 512) 7

lemma length_longFile : longFile.length = 65536 * 512 := length_replicate

/-- The numbers of its last blocks have wrapped, and it arrives. -/
theorem longFile_holds_file : ∃ (events : List Event) (s : System),
    events.foldlM (step longFile 512 2000 fun n => n % 65536 ≠ 0) ⟨tftpStart idle 1024, 0⟩
        = some s ∧ s.client.netState = .success ∧
      (∀ i b, longFile[i]? = some b → s.client.mem (0 + i) = b) ∧
      s.client.xferSize = longFile.length := by
  have hlen := length_longFile
  have hblocks := blocks_wrap hlen
  generalize longFile = file at hlen hblocks
  have hreq : Requested idle 1024 2000 (tftpStart idle 1024) := .start
  have hrep : ∀ n, (fun n : Nat => decide (n % 65536 ≠ 0)) n = true → n % 65536 ≠ 0 :=
    fun n hn => of_decide_eq_true hn
  have hfits : idle.loadAddr + file.length < 2 ^ 32 := by
    rw [hlen]
    decide
  have hstart : Proper file 1024 2000 512 0 ⟨tftpStart idle 1024, 0⟩ :=
    .inl ⟨rfl, hreq.waiting, rfl⟩
  obtain ⟨s, hrun, hsent, hs⟩ := run_nexts (by omega) (fun n => decide (n % 65536 ≠ 0)) rfl
    hstart 65537 hblocks.ge
  rcases hs with ⟨hzero, -⟩ | ⟨-, hrec⟩
  · omega
  have hsuccess : s.client.netState = .success := by
    rw [hrec.net, hsent, if_pos (by omega)]
  exact ⟨_, s, hrun, hsuccess, success_holds_file hreq hfits hrep hrun hsuccess⟩

-- What a repeated block with sequence number 0 does, in a file of 65536 full
-- blocks of 512 bytes: the empty block at its end goes to the wrong place.

lemma handler_wrap_again (h : Received file ourPort port 512 load c 65536) :
    tftpHandler c (blockPacket file 512 ourPort port 65536) = { c with
          block := 0
          blockWrap := (c.blockWrap + 1) % 2 ^ 32
          blockWrapOffset := 67108864 } := by
  have hnumber : c.number (65536 % 65536) = { c with
          block := 0
          blockWrap := (c.blockWrap + 1) % 2 ^ 32
          blockWrapOffset := 67108864 } := by
    unfold Client.number
    rw [if_pos rfl, h.wrap, h.blkSize]
    rfl
  rw [tftpHandler_block h.ourPort (.inr h.serverPort), hnumber, if_neg (by rw [h.state]; decide)]
  unfold Client.accept
  rw [if_pos h.last.symm]

lemma accept_empty {offset : Nat} (hne : c.block ≠ c.lastBlock) (hblk : 0 < c.blkSize)
    (hoffset : ((2 ^ 32 + c.block - 1) % 2 ^ 32 * c.blkSize + c.blockWrapOffset) % 2 ^ 32 = offset)
    (hlarger : c.xferSize < offset) :
    (c.accept []).netState = .success ∧ (c.accept []).xferSize = offset := by
  have hlt : offset % 2 ^ 32 = offset := by rw [← hoffset, mod_mod]
  unfold Client.accept
  rw [if_neg hne]
  dsimp only [Client.storeBlock, Client.send]
  rw [hoffset, length_nil, if_pos hblk, add_zero, hlt, if_pos hlarger]
  exact ⟨rfl, rfl⟩

lemma handler_after_wrap_again (hlen : file.length = 65536 * 512)
    (h : Received file ourPort port 512 load c 65536) (wrap : Nat) :
    (tftpHandler { c with block := 0, blockWrap := wrap, blockWrapOffset := 67108864 }
      (blockPacket file 512 ourPort port 65537)).netState = .success ∧
    (tftpHandler { c with block := 0, blockWrap := wrap, blockWrapOffset := 67108864 }
      (blockPacket file 512 ourPort port 65537)).xferSize = 67108864 := by
  have hdata : blockData file 512 65537 = [] := by
    apply length_eq_zero_iff.mp
    rw [blockData_length, hlen]
    rfl
  have hnumber : Client.number { c with block := 0, blockWrap := wrap, blockWrapOffset := 67108864 }
        (65537 % 65536)
      = { c with block := 1, blockWrap := wrap, blockWrapOffset := 67108864 } := rfl
  rw [tftpHandler_block (by exact h.ourPort) (.inr (by exact h.serverPort)),
    hnumber, if_neg (by rw [h.state]; decide), hdata]
  apply accept_empty
  · dsimp only
    rw [h.last]
    decide
  · rw [h.blkSize]
    decide
  · dsimp only
    rw [h.blkSize]
    rfl
  · rw [h.size, hlen]
    decide

lemma run_wrap_again (hlen : file.length = 65536 * 512) :
    ∃ (events : List Event) (s : System), events.foldlM (step file 512 2000 fun _ => true)
        ⟨tftpStart idle 1024, 0⟩ = some s ∧
      s.client.netState = .success ∧ s.client.xferSize = 67108864 := by
  have hblocks := blocks_wrap hlen
  have hreq : Requested idle 1024 2000 (tftpStart idle 1024) := .start
  have hstart : Proper file 1024 2000 512 0 ⟨tftpStart idle 1024, 0⟩ :=
    .inl ⟨rfl, hreq.waiting, rfl⟩
  obtain ⟨s, hrun, hsent, hs⟩ := run_nexts (by omega) (fun _ => true) rfl hstart 65536 (by omega)
  rcases hs with ⟨hzero, -⟩ | ⟨-, hrec⟩
  · omega
  rw [hsent] at hrec
  have hagain : step file 512 2000 (fun _ => true) s .again = some ⟨_, _⟩ := if_pos ⟨by omega, rfl⟩
  rw [hsent, hrec.ourPort, handler_wrap_again hrec] at hagain
  have hnext : step file 512 2000 (fun _ => true) ⟨{ s.client with
          block := 0
          blockWrap := (s.client.blockWrap + 1) % 2 ^ 32
          blockWrapOffset := 67108864 }, 65536⟩ .next = some ⟨_, _⟩ :=
    if_pos ⟨by rw [hblocks]; exact lt_succ_self _, .inr hrec.acked⟩
  refine ⟨replicate 65536 .next ++ [.again, .next], ⟨_, 65537⟩, ?_,
    handler_after_wrap_again hlen hrec ((s.client.blockWrap + 1) % 2 ^ 32)⟩
  rw [foldlM_append, hrun, bind_eq_bind, bind_some, foldlM_cons, hagain, bind_eq_bind, bind_some,
    foldlM_cons, hnext]
  dsimp only
  rw [hrec.ourPort]
  rfl

/-- The block with number 65536 arrives twice, and the client reports twice
the size of the file. -/
theorem wrap_again_doubles_size :
    ∃ (events : List Event) (s : System),
      events.foldlM (step (replicate 33554432 0) 512 2000 fun _ => true)
        ⟨tftpStart idle 1024, 0⟩ = some s ∧
      s.client.netState = .success ∧ s.client.xferSize = 67108864 :=
  run_wrap_again length_replicate

end BoardStack.Tftp
