/-
POSIX record locks: the lock list of an inode (fs/locks.c).

The locks of a file are one list, in which the locks of an owner stand together,
sorted. A request walks over the locks of its owner once: locks of the same type
that touch it are merged with it, locks of another type are deleted, replaced or
remembered for trimming (`left`, `right`); what is left to insert or to trim is
done after the walk.

The walk holds pointers into the list: `request`, which becomes one of the locks
when it is merged with it, `left` and `right`. As the walk deletes only at the
place where it is and inserts nothing, a pointer to a lock passed is an index
into the locks passed, and `right` is the lock at which the walk stopped.

Two locks have the same owner if they have the same `fl_owner`; a lock manager
with a comparison of its own is left out, and so are locks of other kinds, wait
queues but for the pairs that deadlock detection reads, and `conflock`. Offsets
are `loff_t`: they are not negative, so `start - 1` is in range, and `end + 1`
is taken only below a larger end.
-/
import Mathlib.Data.List.Basic

namespace BoardStack.Locks

/-- `F_RDLCK`, `F_WRLCK` and `F_UNLCK`. -/
inductive LockType where
  | rdlck
  | wrlck
  | unlck
deriving DecidableEq

def offsetMax : Int := 9223372036854775807

def eagain : Int := 11

def edeadlk : Int := 35

def enolck : Int := 37

def enoent : Int := 2

/-- `FILE_LOCK_DEFERRED`. -/
def deferred : Int := 1

structure Lock (O : Type) where
  owner : O
  type : LockType
  start : Int
  end_ : Int
deriving DecidableEq

structure Flags where
  access : Bool
  sleep : Bool
  exists_ : Bool

variable {O : Type} [DecidableEq O]

-- == conflict

def locksOverlap (fl1 fl2 : Lock O) : Bool := fl1.end_ ≥ fl2.start && fl2.end_ ≥ fl1.start

def locksConflict (caller sys : Lock O) : Bool :=
  if sys.type = .wrlck then true
  else if caller.type = .wrlck then true
  else false

def posixLocksConflict (caller sys : Lock O) : Bool :=
  if caller.owner = sys.owner then false
  else if !locksOverlap caller sys then false
  else locksConflict caller sys

/-- `what_owner_is_waiting_for`: the owner of the lock that is waited for.
`waits` are the owners of the waiters in `blocked_list`, each with the owner of
the lock it is blocked by. -/
def whatOwnerIsWaitingFor (waits : List (O × O)) (owner : O) : Option O :=
  (waits.find? fun w => w.1 = owner).map Prod.snd

/-- The loop of `posix_locks_deadlock`. -/
def deadlockLoop (waits : List (O × O)) (caller : O) : Nat → O → Bool
  | 0, _ => false
  | n + 1, owner =>
    match whatOwnerIsWaitingFor waits owner with
    | none => false
    | some blocker =>
      if caller = blocker then true else deadlockLoop waits caller n blocker

/-- `posix_locks_deadlock`; `MAX_DEADLK_ITERATIONS` is 10. -/
def posixLocksDeadlock (waits : List (O × O)) (caller block : Lock O) : Bool :=
  deadlockLoop waits caller.owner 11 block.owner

-- == the walk

/-- The walk over the locks: those passed, and those from `*before` on. -/
structure Walk (O : Type) where
  passed : List (Lock O)
  rest : List (Lock O)
  request : Lock O
  /-- Where `request` stands in `passed`, once it is a lock of the list. -/
  pos : Option Nat
  left : Option Nat
  /-- Is the first lock of `rest` the right one? -/
  right : Bool
  added : Bool

/-- `request->fl_start` and `request->fl_end` are written. -/
def Walk.setRequest (w : Walk O) (start end_ : Int) : Walk O :=
  let request := { w.request with start, end_ }
  { w with
    request
    passed := match w.pos with
      | none => w.passed
      | some i => w.passed.set i request }

/-- `before = &fl->fl_next`. -/
def Walk.next (w : Walk O) (fl : Lock O) : Walk O := { w with passed := w.passed ++ [fl] }

/-- `request = fl; added = 1`, and on to the next lock. -/
def Walk.become (w : Walk O) (fl : Lock O) : Walk O :=
  { w with
    passed := w.passed ++ [fl]
    request := fl
    pos := some w.passed.length
    added := true }

def lockLoop (w : Walk O) : List (Lock O) → Walk O
  | [] => { w with rest := [] }
  | fl :: rest =>
    if w.request.owner ≠ fl.owner then { w with rest := fl :: rest }
    else if w.request.type = fl.type then
      if fl.end_ < w.request.start - 1 then lockLoop (w.next fl) rest
      else if fl.start - 1 > w.request.end_ then { w with rest := fl :: rest }
      else
        let start := if fl.start > w.request.start then w.request.start
          else fl.start
        let end_ := if fl.end_ < w.request.end_ then w.request.end_ else fl.end_
        if w.added then lockLoop (w.setRequest start end_) rest
        else lockLoop (w.become { fl with start, end_ }) rest
    else if fl.end_ < w.request.start then lockLoop (w.next fl) rest
    else if fl.start > w.request.end_ then { w with rest := fl :: rest }
    else
      let w := { w with
        added := if w.request.type = .unlck then true else w.added
        left := if fl.start < w.request.start then some w.passed.length
          else w.left }
      if fl.end_ > w.request.end_ then
        { w with right := true, rest := fl :: rest }
      else if fl.start ≥ w.request.start then
        if w.added then lockLoop w rest
        else lockLoop (w.become { fl with
          start := w.request.start
          end_ := w.request.end_
          type := w.request.type }) rest
      else lockLoop (w.next fl) rest

/-- `left->fl_end = request->fl_start - 1`, for a lock passed. -/
def Walk.trimmed (w : Walk O) : List (Lock O) :=
  match w.left with
  | none => w.passed
  | some i =>
    w.passed.modify i fun left => { left with end_ := w.request.start - 1 }

/-- What is done after the walk: the lock to be inserted, if any, goes to
`*before`, and the locks at its sides are trimmed. -/
def Walk.place (w : Walk O) (inserted : List (Lock O)) : List (Lock O) :=
  if w.right then
    match w.rest with
    | [] => w.passed ++ inserted
    | fl :: rest =>
      let right := { fl with start := w.request.end_ + 1 }
      if w.left = some w.passed.length then
        -- the request breaks a lock in two
        let left := { fl with end_ := w.request.start - 1 }
        w.passed ++ (left :: (inserted ++ right :: rest))
      else w.trimmed ++ (inserted ++ right :: rest)
  else w.trimmed ++ (inserted ++ w.rest)

/-- The end of `__posix_lock_file`. `newFl` and `newFl2` say whether there are
spare locks. -/
def finish (flags : Flags) (newFl newFl2 : Bool) (w : Walk O) : Int × List (Lock O) :=
  if w.right ∧ w.left = some w.passed.length ∧ !newFl2 then
    (-enolck, w.passed ++ w.rest)
  else if w.added then (0, w.place [])
  else if w.request.type = .unlck then
    (if flags.exists_ then -enoent else 0, w.passed ++ w.rest)
  else if !newFl then (-enolck, w.passed ++ w.rest)
  else (0, w.place [w.request])

def walkLocks (locks : List (Lock O)) (request : Lock O) : Walk O :=
  lockLoop ⟨locks.takeWhile fun fl => request.owner ≠ fl.owner, [], request, none,
      none, false, false⟩
    (locks.dropWhile fun fl => request.owner ≠ fl.owner)

/-- `__posix_lock_file`. `mem` and `mem2` say whether the allocations of the two
spare locks succeed; some requests do without them. -/
def posixLockFile (waits : List (O × O)) (flags : Flags) (mem mem2 : Bool)
    (locks : List (Lock O)) (request : Lock O) : Int × List (Lock O) :=
  let spare := !flags.access && (request.type ≠ .unlck || request.start ≠ 0 ||
    request.end_ ≠ offsetMax)
  let conflict := if request.type ≠ .unlck then
      locks.find? (posixLocksConflict request) else none
  match conflict with
  | some fl =>
    if !flags.sleep then (-eagain, locks)
    else if posixLocksDeadlock waits request fl then (-edeadlk, locks)
    else (deferred, locks)
  | none =>
    if flags.access then (0, locks)
    else finish flags (spare && mem) (spare && mem2) (walkLocks locks request)

-- == the map

def typeAt (g : List (Lock O)) (b : Int) : Option LockType :=
  (g.find? fun l => l.start ≤ b ∧ b ≤ l.end_).map Lock.type

def lockAt (locks : List (Lock O)) (o : O) (b : Int) : Option LockType :=
  typeAt (locks.filter fun l => l.owner = o) b

def LockType.wanted : LockType → Option LockType
  | .unlck => none
  | type => some type

structure Valid (request : Lock O) : Prop where
  nonneg : 0 ≤ request.start
  le : request.start ≤ request.end_
  le_max : request.end_ ≤ offsetMax

/-- A lock list that requests lead to, refused ones and ones without memory
among them. -/
inductive Reached : List (Lock O) → Prop where
  | empty : Reached []
  | call {locks : List (Lock O)} (waits : List (O × O)) (flags : Flags)
      (mem mem2 : Bool) (request : Lock O) : Reached locks → Valid request →
      Reached (posixLockFile waits flags mem mem2 locks request).2

end BoardStack.Locks
