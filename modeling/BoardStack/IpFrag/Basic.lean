/-
Reassembly of IPv4 fragments: net/ipv4/ip_fragment.c.

The model is `ip_frag_queue`, `ip_frag_too_far`, `ip_frag_reinit` and
`ip_frag_reasm` for one queue. A chain of `sk_buff`s is a list. The place of a
new fragment is the chain up to `prev`, nearest first, and the chain from
`next` on.

The skb helpers are modelled by what they are documented to do to the bytes
of an skb. Where one may fail, or the code asks its surroundings, `Env` says
what happens; no helper is called twice in one call of `ip_frag_queue`. An
IPv4 packet has at most 65535 bytes, so no `int` of the code wraps here.
Checksums, memory accounting, time stamps and the lru list are left out.
-/
import Mathlib.Data.List.Basic
import Mathlib.Tactic.Ring

namespace BoardStack.IpFrag

-- == the data

def ipMf : BitVec 16 := 0x2000

def ipOffset : BitVec 16 := 0x1FFF

inductive Errno
  | noent
  | timedout
  | inval
  | nomem
  | toobig
deriving DecidableEq, Repr

/-- A fragment as it arrives: the header fields that are read, the payload,
which is partly in the skb itself and partly in skbs on its `frag_list`, and
the flag `IPSKB_FRAG_COMPLETE`. -/
structure Packet where
  fragOff : BitVec 16
  ihl : Nat
  data : List UInt8
  fragList : List UInt8
  complete : Bool
  fits : ihl + data.length + fragList.length ≤ 65535

def Packet.payload (p : Packet) : List UInt8 := p.data ++ p.fragList

/-- Where the payload begins; offsets are in 8-byte chunks. -/
def Packet.offset (p : Packet) : Nat := (p.fragOff &&& ipOffset).toNat <<< 3

def Packet.more (p : Packet) : Bool := p.fragOff &&& ipMf ≠ 0

/-- A queued skb: `FRAG_CB(skb)->offset`, the length of its IP header, the
payload bytes that were pulled off its front since, and the payload left. -/
structure Skb where
  offset : Nat
  ihl : Nat
  pulled : List UInt8
  data : List UInt8
  fragList : List UInt8
deriving DecidableEq, Repr

def Skb.bytes (s : Skb) : List UInt8 := s.data ++ s.fragList

/-- `skb->len`. -/
def Skb.len (s : Skb) : Nat := s.data.length + s.fragList.length

/-- `struct ipq`, with `last_in` as its three bits. -/
structure Queue where
  fragments : List Skb
  len : Nat
  meat : Int
  firstIn : Bool
  lastIn : Bool
  complete : Bool
  peer : Bool
  rid : BitVec 32
deriving DecidableEq, Repr

def fresh (peer : Bool) (rid : BitVec 32) : Queue := ⟨[], 0, 0, false, false, false, peer, rid⟩

/-- What one call sees of its surroundings: `sysctl_ipfrag_max_dist`, the new
value of the peer's counter, whether the timer is pending, and whether each
helper succeeds. -/
structure Env where
  maxDist : BitVec 32
  peerRid : BitVec 32
  timerPending : Bool
  pullHeader : Bool
  trim : Bool
  pullHead : Bool
  pullNext : Bool
  clone : Bool
  headCloned : Bool
  expandHead : Bool
  alloc : Bool
deriving DecidableEq, Repr

-- == skb helpers

/-- `pskb_pull`: take bytes off the front. -/
def pskbPull (ok : Bool) (s : Skb) (n : Nat) : Option Skb :=
  if s.len < n then none
  else if !ok then none
  else some { s with
    pulled := s.pulled ++ s.bytes.take n
    data := s.data.drop n
    fragList := s.fragList.drop (n - s.data.length) }

/-- `pskb_trim_rcsum`: leave the first bytes. It fails only if there are
more. -/
def pskbTrimRcsum (ok : Bool) (s : Skb) (n : Nat) : Option Skb :=
  if s.len ≤ n then some s
  else if !ok then none
  else some { s with
    data := s.data.take n
    fragList := s.fragList.take (n - s.data.length) }

-- == the queue

/-- `ipq_kill`. -/
def Queue.kill (q : Queue) : Queue := { q with complete := true }

def ipFragTooFar (env : Env) (q : Queue) : Bool × Queue :=
  if !q.peer || env.maxDist = 0 then (false, q)
  else (!q.fragments.isEmpty && decide (env.maxDist < env.peerRid - q.rid),
    { q with rid := env.peerRid })

def ipFragReinit (env : Env) (q : Queue) : Option Errno × Queue :=
  if !env.timerPending then (some .timedout, q)
  else (none, { q with
    fragments := [], len := 0, meat := 0,
    firstIn := false, lastIn := false, complete := false })

/-- The first checks of `ip_frag_queue`: a queue that fell too far behind is
started again. -/
def ipFragCheckFar (env : Env) (q : Queue) (p : Packet) : Option Errno × Queue :=
  if p.complete then (none, q)
  else
    let r := ipFragTooFar env q
    if r.1 then ipFragReinit env r.2 else (none, r.2)

/-- What a fragment says about the length of the datagram: the queue with
that noted and the end of the fragment, or `none` if it contradicts what is
known. -/
def ipFragSetLen (q : Queue) (more : Bool) (stop : Nat) : Option (Queue × Nat) :=
  if !more then
    if stop < q.len || (q.lastIn && stop ≠ q.len) then none
    else some ({ q with lastIn := true, len := stop }, stop)
  else
    let stop := stop - stop % 8
    if q.len < stop then
      if q.lastIn then none else some ({ q with len := stop }, stop)
    else some (q, stop)

def findPlace (offset : Nat) : List Skb → List Skb → List Skb × List Skb
  | prevs, [] => (prevs, [])
  | prevs, next :: rest =>
    if offset ≤ next.offset then (prevs, next :: rest)
    else findPlace offset (next :: prevs) rest

/-- The overlap with the preceding fragment is taken off the new one. -/
def eatHead (env : Env) (offset stop : Nat) (s : Skb) : List Skb → Except Errno (Nat × Skb)
  | [] => .ok (offset, s)
  | prev :: _ =>
    let i := prev.offset + prev.len - offset
    if 0 < i then
      let offset := offset + i
      if stop ≤ offset then .error .inval
      else
        match pskbPull env.pullHead s i with
        | none => .error .nomem
        | some s => .ok (offset, s)
    else .ok (offset, s)

/-- The loop over the following fragments: what is left of the chain and of
`meat`, and whether it went through. -/
def eatNext (env : Env) (stop : Nat) : List Skb → Int → Bool × List Skb × Int
  | [], meat => (true, [], meat)
  | next :: rest, meat =>
    if next.offset < stop then
      let i := stop - next.offset
      if i < next.len then
        match pskbPull env.pullNext next i with
        | none => (false, next :: rest, meat)
        | some s => (true, { s with offset := s.offset + i } :: rest, meat - i)
      else eatNext env stop rest (meat - next.len)
    else (true, next :: rest, meat)

-- == reassembly

structure Datagram where
  ihl : Nat
  payload : List UInt8
  totLen : Nat
deriving DecidableEq, Repr

/-- How `ip_frag_reasm` ends; `oops` is the use of a NULL head. -/
inductive Reasm
  | oops
  | failed (err : Errno)
  | ok (d : Datagram)
deriving DecidableEq, Repr

/-- `ip_frag_reasm`. If there is a `prev`, the new fragment is replaced by a
clone and becomes the first one; the chain stays the same but for who owns
which skb. A first fragment with a `frag_list` is split in two. The IP header
of the first one is pushed back, with all that was pulled since. -/
def ipFragReasm (env : Env) (q : Queue) (prevs : List Skb) : Reasm × Queue :=
  let q := q.kill
  if !prevs.isEmpty && !env.clone then (.failed .nomem, q)
  else
    match q.fragments with
    | [] => (.oops, q)
    | head :: rest =>
      let len := head.ihl + q.len
      if 65535 < len then (.failed .toobig, q)
      else if env.headCloned && !env.expandHead then (.failed .nomem, q)
      else if !head.fragList.isEmpty && !env.alloc then (.failed .nomem, q)
      else
        let chain := if head.fragList.isEmpty then rest
          else ⟨0, 0, [], [], head.fragList⟩ :: rest
        (.ok ⟨head.ihl, head.pulled ++ head.data ++ chain.flatMap Skb.bytes, len⟩,
          { q with fragments := [] })

/-- How `ip_frag_queue` ends; `reasm` has the queue `ip_frag_reasm` was called
with. -/
inductive Outcome
  | failed (err : Errno)
  | inProgress
  | reasm (entry : Queue) (res : Reasm)
deriving DecidableEq, Repr

def Queue.insert (q : Queue) (s : Skb) (prevs nexts : List Skb) (meat : Int) :
    Queue :=
  { q with
    fragments := prevs.reverse ++ s :: nexts
    meat := meat + s.len
    firstIn := q.firstIn || s.offset = 0 }

/-- Both ends are in, and so much meat as the datagram has bytes. -/
def Queue.done (q : Queue) : Bool := q.firstIn && q.lastIn && !q.complete && q.meat = q.len

/-- The end of `ip_frag_queue`. -/
def ipFragFinish (env : Env) (q : Queue) (prevs : List Skb) : Outcome × Queue :=
  if q.done then
    let r := ipFragReasm env q prevs
    (.reasm q r.1, r.2)
  else (.inProgress, q)

/-- The part of `ip_frag_queue` after the length is noted. -/
def ipFragPlace (env : Env) (q : Queue) (p : Packet) (stop : Nat) : Outcome × Queue :=
  if stop = p.offset then (.failed .inval, q)
  else if !env.pullHeader then (.failed .nomem, q)
  else
    match pskbTrimRcsum env.trim ⟨0, p.ihl, [], p.data, p.fragList⟩ (stop - p.offset) with
    | none => (.failed .nomem, q)
    | some s =>
      let place := findPlace p.offset [] q.fragments
      match eatHead env p.offset stop s place.1 with
      | .error err => (.failed err, q)
      | .ok (offset, s) =>
        let r := eatNext env stop place.2 q.meat
        if !r.1 then
          (.failed .nomem, { q with
            fragments := place.1.reverse ++ r.2.1, meat := r.2.2 })
        else
          ipFragFinish env (q.insert { s with offset := offset } place.1 r.2.1 r.2.2) place.1

def ipFragQueue (env : Env) (q : Queue) (p : Packet) : Outcome × Queue :=
  if q.complete then (.failed .noent, q)
  else
    match ipFragCheckFar env q p with
    | (some err, q) => (.failed err, q.kill)
    | (none, q) =>
      match ipFragSetLen q p.more (p.offset + p.payload.length) with
      | none => (.failed .inval, q)
      | some (q, stop) => ipFragPlace env q p stop

-- == runs

structure Input where
  packet : Packet
  env : Env

/-- The queue after some fragments, the first one first. -/
def queueAfter (q : Queue) (inputs : List Input) : Queue :=
  inputs.foldl (fun q i => (ipFragQueue i.env q i.packet).2) q

end BoardStack.IpFrag
