/-
The timer wheel of a CPU: kernel/timer.c.

A timer that is due within the next `TVR_SIZE` ticks is in `tv1`, at its own
tick's slot; later ones are in `tv2` to `tv5`, whose slots stand for more and
more ticks and are spread out again ("cascaded") when their time begins. All
times are `unsigned long`.

The base's lock is dropped while a timer's function runs, so `__run_timers`
is a sequence of steps other CPUs and the functions themselves can get in
between: a turn of its outer loop takes the timers of one tick off the wheel,
and each turn of the inner loop runs the first that is left.
-/
import BoardStack.Base.Bits
import BoardStack.Base.CInt
import BoardStack.Base.Run

namespace BoardStack.Timer

open Base Function

universe u

variable {T : Type u}

-- == the wheel

/-- The machine's word, and `CONFIG_BASE_SMALL`. -/
structure Geometry where
  word : WordSize
  small : Bool
deriving DecidableEq, Repr

def Geometry.tvnBits (g : Geometry) : Nat := if g.small then 4 else 6

def Geometry.tvrBits (g : Geometry) : Nat := if g.small then 6 else 8

def Geometry.tvnSize (g : Geometry) : Nat := 2 ^ g.tvnBits

def Geometry.tvrSize (g : Geometry) : Nat := 2 ^ g.tvrBits

/-- The bits of a time below those that index an array: 0 for `tv1`, which is
array 0, and `TVR_BITS + N * TVN_BITS` for array `N + 1`. -/
def Geometry.shift (g : Geometry) : Nat → Nat
  | 0 => 0
  | n + 1 => g.tvrBits + n * g.tvnBits

/-- `struct tvec_base`: `tv 0` is `tv1`, ..., `tv 4` is `tv5`. -/
structure TvecBase (T : Type u) where
  timerJiffies : Nat
  tv : Nat → Nat → List T

def TvecBase.setVec (base : TvecBase T) (k i : Nat) (l : List T) : TvecBase T :=
  { base with
    tv := update base.tv k (update (base.tv k) i l) }

/-- The array and slot `internal_add_timer` chooses. -/
def slotOf (g : Geometry) (timerJiffies expires : Nat) : Nat × Nat :=
  let w := g.word.bits
  let idx := unsigned w ((expires : Int) - (timerJiffies : Int))
  let tvnMask := g.tvnSize - 1
  if idx < g.tvrSize then (0, expires &&& (g.tvrSize - 1))
  else if idx < 2 ^ (g.tvrBits + g.tvnBits) then
    (1, (expires >>> g.tvrBits) &&& tvnMask)
  else if idx < 2 ^ (g.tvrBits + 2 * g.tvnBits) then
    (2, (expires >>> (g.tvrBits + g.tvnBits)) &&& tvnMask)
  else if idx < 2 ^ (g.tvrBits + 3 * g.tvnBits) then
    (3, (expires >>> (g.tvrBits + 2 * g.tvnBits)) &&& tvnMask)
  else if signed w idx < 0 then (0, timerJiffies &&& (g.tvrSize - 1))
  else
    let expires := if 0xffffffff < idx then
        unsigned w ((0xffffffff + timerJiffies : Nat) : Int)
      else expires
    (4, (expires >>> (g.tvrBits + 3 * g.tvnBits)) &&& tvnMask)

def internalAddTimer (g : Geometry) (expires : T → Nat) (base : TvecBase T)
    (timer : T) : TvecBase T :=
  let s := slotOf g base.timerJiffies (expires timer)
  base.setVec s.1 s.2 (base.tv s.1 s.2 ++ [timer])

def cascade (g : Geometry) (expires : T → Nat) (base : TvecBase T) (k index : Nat) : TvecBase T :=
  (base.tv k index).foldl (internalAddTimer g expires) (base.setVec k index [])

/-- `INDEX(N)` for the array `N + 1`. -/
def index (g : Geometry) (base : TvecBase T) (k : Nat) : Nat :=
  (base.timerJiffies >>> g.shift k) &&& (g.tvnSize - 1)

/-- The chain of `cascade` calls: each one that returns 0 lets the next array
follow. -/
def cascades (g : Geometry) (expires : T → Nat) : List Nat → TvecBase T → TvecBase T
  | [], base => base
  | k :: ks, base =>
    let base' := cascade g expires base k (index g base k)
    if index g base k = 0 then cascades g expires ks base' else base'

/-- A turn of the outer loop of `__run_timers` up to its work list. -/
def takeTick (g : Geometry) (expires : T → Nat) (base : TvecBase T) : List T × TvecBase T :=
  let i := base.timerJiffies &&& (g.tvrSize - 1)
  let base := if i = 0 then cascades g expires [1, 2, 3, 4] base else base
  (base.tv 0 i, { base.setVec 0 i [] with
      timerJiffies := unsigned g.word.bits (base.timerJiffies + 1 : Nat) })

def timeAfterEq (g : Geometry) (a b : Nat) : Bool := 0 ≤ signed g.word.bits ((a : Int) - (b : Int))

-- == the system

/-- The base, its timers and a call of `__run_timers`: `expires` and
`timer_pending` of each timer, `jiffies`, and the work list. -/
structure System (T : Type u) where
  base : TvecBase T
  expires : T → Nat
  pending : T → Bool
  jiffies : Nat
  workList : List T

/-- What can happen to it. -/
inductive Op (T : Type u)
  | add (timer : T) (expires : Nat)
  | del (timer : T)
  | advance (n : Nat)
  | tick
  | fire (timer : T)
deriving DecidableEq, Repr

variable [DecidableEq T]

/-- `detach_timer(timer, 1)`: the timer leaves the list it is on. -/
def detachTimer (s : System T) (timer : T) : System T :=
  { s with
    base := { s.base with tv := fun k i => (s.base.tv k i).erase timer }
    workList := s.workList.erase timer
    pending := update s.pending timer false }

/-- One step, if it is enabled: a timer is added when it is not pending (or
after it was detached), a pending one is removed, `jiffies` goes on,
`__run_timers` begins the next tick when `jiffies` has reached it and the
last tick's timers have run, or runs the first of the timers left. -/
def step (g : Geometry) (s : System T) : Op T → Option (System T)
  | .add timer expires =>
    if s.pending timer then none
    else
      let e := update s.expires timer (unsigned g.word.bits (expires : Int))
      some { s with
        expires := e
        pending := update s.pending timer true
        base := internalAddTimer g e s.base timer }
  | .del timer =>
    if s.pending timer then some (detachTimer s timer) else none
  | .advance n =>
    some { s with
      jiffies := unsigned g.word.bits ((s.jiffies + n : Nat) : Int) }
  | .tick =>
    if s.workList = [] ∧ timeAfterEq g s.jiffies s.base.timerJiffies then
      let r := takeTick g s.expires s.base
      some { s with base := r.2, workList := r.1 }
    else none
  | .fire timer =>
    if s.workList.head? = some timer then some (detachTimer s timer)
    else none

def init (g : Geometry) (start : Nat) : System T where
  base := ⟨unsigned g.word.bits (start : Int), fun _ _ => []⟩
  expires := fun _ => 0
  pending := fun _ => false
  jiffies := unsigned g.word.bits (start : Int)
  workList := []

-- == the ticks

/-- The tick that comes next: the ticks taken since `start`, not reduced to a
word. -/
def now (start : Nat) (ops : List (Op T)) : Nat := start + ops.count .tick

/-- The tick a timer is due at that is added when tick `b` comes next: the
later of `b` and its expiry. -/
def dueTick (g : Geometry) (b expires : Nat) : Nat :=
  b + (signed g.word.bits ((expires : Int) - (b : Int))).toNat

end BoardStack.Timer
