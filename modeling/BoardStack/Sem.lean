/-
System V semaphores: ipc/sem.c.

`try_atomic_semop` applies the operations one by one, in place. When one of
them cannot be applied it walks back over those before it and takes their
effect on the values back; the process ids and the undo adjustments are written
in a second pass, after the last operation was applied. The operations applied
so far are kept newest first, which is the order in which both passes visit
them.

Values, adjustments and operations have the widths of the source: `int`,
`short` and `short`. Taking an operation back is exact for every value, so that
part needs no range; the sums are those of the integers when the values are in
the range the kernel keeps them in. The time of the last operation, which
nothing here reads, is left out.

`update_queue` walks the queue of sleeping operations and tries every entry. An
entry that still has to sleep stays; any other one is taken off and its task woken
with the result. After an entry that may have altered values the walk starts again
at the head, after one that only waits for zeros it goes on: such an entry writes
process ids alone, and what an operation does depends on values and adjustments. So
whenever the walk stands at an entry, every entry before it would sleep in the
current state, and at the end of the queue that is all of them. The queue is cut at
the entry the walk stands at: `before` are the entries passed, in order.

A run of calls and interruptions keeps this. It records the calls that have
returned, with their results and in the order in which they were done, and comes to
the same as these calls made one after the other (`run_serializes`).
-/
import Mathlib.Algebra.BigOperators.Group.List.Basic
import Mathlib.Data.BitVec
import Mathlib.Tactic.Ring
import BoardStack.Base.Run

namespace BoardStack.Sem

open Function List

-- == types

def semvmx : Int := 32767

def semaem : Int := semvmx

/-- `struct sembuf`; the flags are `SEM_UNDO` and `IPC_NOWAIT`. -/
structure Sembuf where
  semNum : Nat
  semOp : BitVec 16
  semUndo : Bool
  ipcNowait : Bool
deriving DecidableEq

/-- `struct sem`. -/
structure Semaphore where
  semval : BitVec 32
  sempid : Int
deriving DecidableEq

/-- The semaphores of an array, and the adjustments of the undo structures that
belong to it. -/
structure State where
  semBase : Nat → Semaphore
  semadj : Nat → Nat → BitVec 16

/-- What `try_atomic_semop` returns: 0, 1, `-EAGAIN` or `-ERANGE`. -/
inductive Ret where
  | ok
  | sleep
  | eagain
  | erange
deriving DecidableEq, Repr

/-- As the number the source returns. -/
def Ret.error : Ret → Int
  | .ok => 0
  | .sleep => 1
  | .eagain => -11
  | .erange => -34

/-- A call of `semtimedop`, as it is tried and as it is queued
(`struct sem_queue`). -/
structure Request where
  sops : List Sembuf
  undo : Option Nat
  pid : Int
  alter : Bool
  /-- There is an undo structure if an operation wants one. -/
  undo_isSome : undo.isSome = sops.any Sembuf.semUndo
  alter_eq : alter = sops.any fun sop => sop.semOp != 0

namespace State

variable (s : State)

/-- `sma->sem_base[n].semval`. -/
def semval (n : Nat) : BitVec 32 := (s.semBase n).semval

def setSemval (n : Nat) (v : BitVec 32) : State :=
  { s with
    semBase := update s.semBase n { s.semBase n with semval := v } }

def setSempid (n : Nat) (pid : Int) : State :=
  { s with
    semBase := update s.semBase n { s.semBase n with sempid := pid } }

/-- `un->semadj[n]`. -/
def adj (un : Option Nat) (n : Nat) : BitVec 16 := un.elim 0 fun u => s.semadj u n

def setAdj (un : Option Nat) (n : Nat) (v : BitVec 16) : State :=
  match un with
  | none => s
  | some u =>
    { s with
      semadj := update s.semadj u (update (s.semadj u) n v) }

def InRange : Prop := ∀ n, 0 ≤ (s.semval n).toInt ∧ (s.semval n).toInt ≤ semvmx

end State

-- == try_atomic_semop

/-- `semval -= sop->sem_op`. -/
def takeBack (s : State) (sop : Sembuf) : State :=
  s.setSemval sop.semNum (s.semval sop.semNum - sop.semOp.signExtend 32)

/-- The loop behind `undo:`. -/
def undoOps (s : State) (applied : List Sembuf) : State := applied.foldl takeBack s

def note (un : Option Nat) (pid : Int) (s : State) (sop : Sembuf) : State :=
  let s := s.setSempid sop.semNum pid
  if sop.semUndo then
    s.setAdj un sop.semNum (s.adj un sop.semNum - sop.semOp)
  else s

/-- The loop after the last operation. -/
def noteOps (un : Option Nat) (pid : Int) (s : State) (applied : List Sembuf) : State :=
  applied.foldl (note un pid) s

/-- `would_block:`. -/
def wouldBlock (sop : Sembuf) : Ret :=
  if sop.ipcNowait then .eagain else .sleep

def undoOutOfRange (s : State) (un : Option Nat) (sop : Sembuf) : Bool :=
  let undo := (s.adj un sop.semNum).toInt - sop.semOp.toInt
  undo < -semaem - 1 || undo > semaem

/-- The loop over the operations; `applied` are those before `sop`, newest
first. -/
def semopLoop (un : Option Nat) (pid : Int) : State → List Sembuf → List Sembuf → Ret × State
  | s, applied, [] => (.ok, noteOps un pid s applied)
  | s, applied, sop :: rest =>
    let result := s.semval sop.semNum
    if sop.semOp = 0 ∧ result ≠ 0 then (wouldBlock sop, undoOps s applied)
    else
      let result := result + sop.semOp.signExtend 32
      if result.toInt < 0 then (wouldBlock sop, undoOps s applied)
      else if result.toInt > semvmx then (.erange, undoOps s applied)
      else if sop.semUndo ∧ undoOutOfRange s un sop then
        (.erange, undoOps s applied)
      else
        semopLoop un pid (s.setSemval sop.semNum result) (sop :: applied) rest

def tryAtomicSemop (s : State) (q : Request) : Ret × State := semopLoop q.undo q.pid s [] q.sops

-- == values

def total (sops : List Sembuf) (n : Nat) : Int :=
  ((sops.filter (·.semNum = n)).map (·.semOp.toInt)).sum

/-- The same in machine words. -/
def wordTotal (sops : List Sembuf) (n : Nat) : BitVec 32 :=
  ((sops.filter (·.semNum = n)).map (·.semOp.signExtend 32)).sum

section

variable {s s' : State} {un : Option Nat} {pid : Int} {sop : Sembuf}
  {applied sops : List Sembuf} {n m : Nat}

namespace State

lemma semval_setSemval (v : BitVec 32) :
    (s.setSemval n v).semval m = if m = n then v else s.semval m := by
  unfold semval setSemval
  by_cases h : m = n
  · subst h
    simp
  · simp [h]

@[simp] lemma semval_setSempid (pid : Int) : (s.setSempid n pid).semval m = s.semval m := by
  unfold semval setSempid
  by_cases h : m = n
  · subst h
    simp
  · simp [h]

@[simp] lemma semval_setAdj (v : BitVec 16) : (s.setAdj un n v).semval m = s.semval m := by
  cases un <;> rfl

lemma setSemval_setSemval (v w : BitVec 32) :
    (s.setSemval n v).setSemval n w = s.setSemval n w := by
  unfold setSemval
  simp

lemma setSemval_self : s.setSemval n (s.semval n) = s := by
  unfold setSemval semval
  simp

end State

lemma takeBack_setSemval (s : State) (sop : Sembuf) :
    takeBack (s.setSemval sop.semNum (s.semval sop.semNum + sop.semOp.signExtend 32)) sop = s := by
  unfold takeBack
  rw [State.semval_setSemval, if_pos rfl, BitVec.add_sub_cancel,
    State.setSemval_setSemval, State.setSemval_self]

@[simp] lemma semval_noteOps : (noteOps un pid s applied).semval n = s.semval n := by
  unfold noteOps
  induction applied generalizing s with
  | nil => rfl
  | cons sop applied ih =>
    rw [foldl_cons, ih]
    unfold note
    split_ifs <;> simp

@[simp] lemma total_nil : total [] n = 0 := rfl

@[simp] lemma wordTotal_nil : wordTotal [] n = 0 := rfl

lemma total_cons (sop : Sembuf) (sops : List Sembuf) (n : Nat) :
    total (sop :: sops) n = (if sop.semNum = n then sop.semOp.toInt else 0) + total sops n := by
  unfold total
  by_cases h : sop.semNum = n <;> simp [h]

lemma wordTotal_cons (sop : Sembuf) (sops : List Sembuf) (n : Nat) :
    wordTotal (sop :: sops) n = (if sop.semNum = n then sop.semOp.signExtend 32 else 0)
        + wordTotal sops n := by
  unfold wordTotal
  by_cases h : sop.semNum = n <;> simp [h]

lemma total_append (sops sops' : List Sembuf) (n : Nat) :
    total (sops ++ sops') n = total sops n + total sops' n := by
  unfold total
  simp

lemma wordTotal_append (sops sops' : List Sembuf) (n : Nat) :
    wordTotal (sops ++ sops') n = wordTotal sops n + wordTotal sops' n := by
  unfold wordTotal
  simp

-- == the loop

structure Applies (s : State) (un : Option Nat) (sop : Sembuf) : Prop where
  zero : sop.semOp = 0 → s.semval sop.semNum = 0
  nonneg : 0 ≤ (s.semval sop.semNum + sop.semOp.signExtend 32).toInt
  le : (s.semval sop.semNum + sop.semOp.signExtend 32).toInt ≤ semvmx
  undo : sop.semUndo = true → undoOutOfRange s un sop = false

def after (s : State) (sop : Sembuf) : State :=
  s.setSemval sop.semNum (s.semval sop.semNum + sop.semOp.signExtend 32)

/-- One turn of the loop: the operation is applied, or everything before it is
taken back. -/
lemma semopLoop_cons (s : State) (un : Option Nat) (pid : Int)
    (applied : List Sembuf) (sop : Sembuf) (rest : List Sembuf) :
    (Applies s un sop ∧ semopLoop un pid s applied (sop :: rest)
        = semopLoop un pid (after s sop) (sop :: applied) rest) ∨
    (¬Applies s un sop ∧ ∃ ret, ret ≠ .ok ∧
      semopLoop un pid s applied (sop :: rest) = (ret, undoOps s applied)) := by
  have hblock : wouldBlock sop ≠ .ok := by
    unfold wouldBlock
    split_ifs <;> simp
  rw [semopLoop]
  by_cases hzero : sop.semOp = 0 ∧ s.semval sop.semNum ≠ 0
  · rw [if_pos hzero]
    exact .inr ⟨fun h => hzero.2 (h.zero hzero.1), _, hblock, rfl⟩
  rw [if_neg hzero]
  dsimp only
  split_ifs with hneg hbig hundo
  · exact .inr ⟨fun h => absurd h.nonneg (by omega), _, hblock, rfl⟩
  · exact .inr ⟨fun h => absurd h.le (by omega), _, by simp, rfl⟩
  · refine .inr ⟨fun h => ?_, _, by simp, rfl⟩
    rw [h.undo hundo.1] at hundo
    exact Bool.false_ne_true hundo.2
  · refine .inl ⟨⟨fun h => ?_, by omega, by omega, fun h => ?_⟩, rfl⟩
    · by_contra hne
      exact hzero ⟨h, hne⟩
    · by_contra hout
      exact hundo ⟨h, by simpa using hout⟩

/-- Each operation applies in the state the ones before it lead to. -/
def AllApply (un : Option Nat) : State → List Sembuf → Prop
  | _, [] => True
  | s, sop :: rest => Applies s un sop ∧ AllApply un (after s sop) rest

lemma semopLoop_spec (un : Option Nat) (pid : Int) (rest : List Sembuf) :
    ∀ (s : State) (applied : List Sembuf), (AllApply un s rest ∧ semopLoop un pid s applied rest
          = (.ok, noteOps un pid (rest.foldl after s) (rest.reverse ++ applied))) ∨
      (¬AllApply un s rest ∧ ∃ ret, ret ≠ .ok ∧
        semopLoop un pid s applied rest = (ret, undoOps s applied)) := by
  induction rest with
  | nil =>
    intro s applied
    exact .inl ⟨trivial, rfl⟩
  | cons sop rest ih =>
    intro s applied
    obtain ⟨happly, hnext⟩ | ⟨hnot, ret, hret, hstop⟩ := semopLoop_cons s un pid applied sop rest
    · rw [hnext]
      obtain ⟨hall, hdone⟩ | ⟨hnot, ret, hret, hstop⟩ := ih (after s sop) (sop :: applied)
      · refine .inl ⟨⟨happly, hall⟩, ?_⟩
        rw [hdone, reverse_cons, append_assoc]
        rfl
      refine .inr ⟨fun h => hnot h.2, ret, hret, ?_⟩
      rw [hstop]
      unfold undoOps
      rw [foldl_cons]
      unfold after
      rw [takeBack_setSemval]
    · exact .inr ⟨fun h => hnot h.1, ret, hret, hstop⟩

lemma tryAtomicSemop_spec (s : State) (q : Request) :
    (AllApply q.undo s q.sops ∧ tryAtomicSemop s q
      = (.ok, noteOps q.undo q.pid (q.sops.foldl after s) q.sops.reverse)) ∨
    (¬AllApply q.undo s q.sops ∧ ∃ ret, ret ≠ .ok ∧ tryAtomicSemop s q = (ret, s)) := by
  have h := semopLoop_spec q.undo q.pid q.sops s []
  rw [append_nil] at h
  exact h

-- == sums

lemma semval_after :
    (after s sop).semval n = s.semval n
      + (if sop.semNum = n then sop.semOp.signExtend 32 else 0) := by
  unfold after
  rw [State.semval_setSemval]
  by_cases h : n = sop.semNum
  · subst h
    simp
  · rw [if_neg h, if_neg (Ne.symm h)]
    simp

lemma semval_foldl_after (sops : List Sembuf) :
    (sops.foldl after s).semval n = s.semval n + wordTotal sops n := by
  induction sops generalizing s with
  | nil => simp
  | cons sop sops ih =>
    rw [foldl_cons, ih, semval_after, wordTotal_cons, BitVec.add_assoc]

lemma toInt_add_semOp {v : BitVec 32} (h0 : 0 ≤ v.toInt)
    (h1 : v.toInt ≤ semvmx) (op : BitVec 16) :
    (v + op.signExtend 32).toInt = v.toInt + op.toInt := by
  have hlo := op.le_toInt
  have hhi := op.toInt_lt
  have hmax : semvmx = 32767 := rfl
  rw [BitVec.toInt_add, BitVec.toInt_signExtend_of_le (by omega)]
  apply Int.bmod_eq_of_le <;> omega

lemma State.InRange.after (hs : s.InRange) (happly : Applies s un sop) :
    (Sem.after s sop).InRange ∧ ∀ n, ((Sem.after s sop).semval n).toInt
      = (s.semval n).toInt + total [sop] n := by
  have hvalue : ∀ n, ((Sem.after s sop).semval n).toInt = (s.semval n).toInt + total [sop] n := by
    intro n
    rw [semval_after, total_cons, total_nil]
    by_cases h : sop.semNum = n
    · subst h
      rw [if_pos rfl, if_pos rfl, toInt_add_semOp (hs _).1 (hs _).2]
      omega
    · simp [h]
  refine ⟨fun n => ?_, hvalue⟩
  by_cases h : sop.semNum = n
  · subst h
    have h0 := happly.nonneg
    have h1 := happly.le
    rw [semval_after, if_pos rfl]
    exact ⟨h0, h1⟩
  · rw [semval_after, if_neg h]
    simpa using hs n

/-- From values in range, an array of operations that applies adds the sums and
keeps, operation by operation, to the range. -/
lemma AllApply.values (hs : s.InRange) (hall : AllApply un s sops) :
    (sops.foldl after s).InRange ∧
    (∀ n, ((sops.foldl after s).semval n).toInt = (s.semval n).toInt + total sops n) ∧
    ∀ before sop rest, sops = before ++ sop :: rest →
      let value := (s.semval sop.semNum).toInt + total before sop.semNum
      0 ≤ value + sop.semOp.toInt ∧ value + sop.semOp.toInt ≤ semvmx ∧
        (sop.semOp = 0 → value = 0) := by
  induction sops generalizing s with
  | nil =>
    refine ⟨hs, fun n => by simp, ?_⟩
    intro before sop rest h
    simp at h
  | cons sop sops ih =>
    obtain ⟨happly, hrest⟩ := hall
    obtain ⟨hrange, hvalue⟩ := hs.after happly
    obtain ⟨hlast, hsum, heach⟩ := ih hrange hrest
    refine ⟨hlast, fun n => ?_, ?_⟩
    · rw [foldl_cons, hsum, hvalue, total_cons sop sops, total_cons, total_nil]
      omega
    intro before sop' rest h
    cases before with
    | nil =>
      obtain ⟨rfl, rfl⟩ := List.cons.inj h
      have h0 := happly.nonneg
      have h1 := happly.le
      rw [toInt_add_semOp (hs _).1 (hs _).2] at h0 h1
      refine ⟨by simpa using h0, by simpa using h1, fun hzero => ?_⟩
      simp [happly.zero hzero]
    | cons first before =>
      obtain ⟨rfl, rfl⟩ := List.cons.inj h
      have hone := heach before sop' rest rfl
      rw [hvalue] at hone
      rw [total_cons, total_nil] at hone
      rw [total_cons]
      simp only [add_zero, ← add_assoc] at hone ⊢
      exact hone

-- == all or nothing

/-- All or nothing: from values in range, `try_atomic_semop` returns 0 with
every operation applied in order, each of them within the range and each wait
for zero at zero, or it leaves values, process ids and adjustments as they
were. -/
theorem semop_all_or_nothing (s : State) (q : Request) (hs : s.InRange) :
    ((tryAtomicSemop s q).1 = .ok → (∀ n, ((tryAtomicSemop s q).2.semval n).toInt
        = (s.semval n).toInt + total q.sops n) ∧ ∀ before sop rest, q.sops = before ++ sop :: rest →
        let value := (s.semval sop.semNum).toInt + total before sop.semNum
        0 ≤ value + sop.semOp.toInt ∧ value + sop.semOp.toInt ≤ semvmx ∧
          (sop.semOp = 0 → value = 0)) ∧
    ((tryAtomicSemop s q).1 ≠ .ok → (tryAtomicSemop s q).2 = s) := by
  obtain ⟨hall, hrun⟩ | ⟨-, ret, hret, hrun⟩ := tryAtomicSemop_spec s q
  · obtain ⟨-, hsum, heach⟩ := hall.values hs
    rw [hrun]
    refine ⟨fun _ => ⟨fun n => ?_, heach⟩, fun h => absurd rfl h⟩
    rw [semval_noteOps, hsum]
  · rw [hrun]
    exact ⟨fun h => absurd h hret, fun _ => rfl⟩

def allZero : State where
  semBase := fun _ => ⟨0, 0⟩
  semadj := fun _ _ => 0

/-- Wait for zero, add three and take one, on one semaphore. -/
def threeOps : Request where
  sops := [⟨0, 0, false, false⟩, ⟨0, 3, false, false⟩, ⟨0, -1, false, false⟩]
  undo := none
  pid := 7
  alter := true
  undo_isSome := rfl
  alter_eq := rfl

theorem threeOps_applied : allZero.InRange ∧ (tryAtomicSemop allZero threeOps).1 = .ok ∧
    ((tryAtomicSemop allZero threeOps).2.semval 0).toInt = 2 := by
  have hrange : allZero.InRange := by
    intro n
    have hzero : allZero.semval n = 0 := rfl
    rw [hzero]
    decide
  have hret : (tryAtomicSemop allZero threeOps).1 = .ok := by decide
  obtain ⟨hsum, -⟩ := (semop_all_or_nothing allZero threeOps hrange).1 hret
  exact ⟨hrange, hret, hsum 0⟩

end

-- == update_queue

/-- What a walk leaves: the array, the queue, and who was woken with what
result, in order. -/
structure Updated where
  state : State
  pending : List Request
  woken : List (Request × Ret)

/-- The loop of `update_queue`. -/
def updateLoop (s : State) (before rest : List Request) : Updated :=
  match rest with
  | [] => ⟨s, before, []⟩
  | q :: rest =>
    let r := tryAtomicSemop s q
    if r.1.error ≤ 0 then
      let out := if q.alter then updateLoop r.2 [] (before ++ rest)
        else updateLoop r.2 before rest
      { out with woken := (q, r.1) :: out.woken }
    else updateLoop r.2 (before ++ [q]) rest
termination_by (before.length + rest.length, rest.length)
decreasing_by
  all_goals simp [Prod.lex_def]
  omega

def updateQueue (s : State) (pending : List Request) : Updated := updateLoop s [] pending

-- == what an operation depends on

variable {s s' : State} {q : Request} {sops : List Sembuf}

/-- Everything but the process ids. -/
structure SameValues (s s' : State) : Prop where
  semval : ∀ n, s'.semval n = s.semval n
  semadj : s'.semadj = s.semadj

lemma SameValues.refl (s : State) : SameValues s s := ⟨fun _ => rfl, rfl⟩

lemma SameValues.setSemval (h : SameValues s s') (n : Nat) (v : BitVec 32) :
    SameValues (s.setSemval n v) (s'.setSemval n v) := by
  refine ⟨fun m => ?_, h.semadj⟩
  rw [State.semval_setSemval, State.semval_setSemval, h.semval]

lemma SameValues.undoOutOfRange (h : SameValues s s') (un : Option Nat)
    (sop : Sembuf) : undoOutOfRange s' un sop = undoOutOfRange s un sop := by
  unfold Sem.undoOutOfRange State.adj
  rw [h.semadj]

lemma SameValues.ret (h : SameValues s s') (q : Request) :
    (tryAtomicSemop s' q).1 = (tryAtomicSemop s q).1 := by
  have hloop : ∀ (rest : List Sembuf) (s s' : State) (applied : List Sembuf), SameValues s s' →
      (semopLoop q.undo q.pid s' applied rest).1 = (semopLoop q.undo q.pid s applied rest).1 := by
    intro rest
    induction rest with
    | nil =>
      intro s s' applied _
      rfl
    | cons sop rest ih =>
      intro s s' applied hsame
      rw [semopLoop, semopLoop, hsame.semval, hsame.undoOutOfRange]
      dsimp only
      split_ifs
      · rfl
      · rfl
      · rfl
      · rfl
      · exact ih _ _ _ (hsame.setSemval _ _)
  exact hloop q.sops s s' [] h

-- == waits for zero only

lemma semOp_eq_zero (halter : q.alter = false) : ∀ sop ∈ q.sops, sop.semOp = 0 := by
  rw [q.alter_eq, any_eq_false] at halter
  intro sop hsop
  simpa using halter sop hsop

lemma after_zero {sop : Sembuf} (hzero : sop.semOp = 0) (s : State) : after s sop = s := by
  have hword : (0 : BitVec 16).signExtend 32 = 0#32 := by decide
  unfold after
  rw [hzero, hword, BitVec.add_zero, State.setSemval_self]

lemma foldl_after_zero (hzero : ∀ sop ∈ sops, sop.semOp = 0) (s : State) :
    sops.foldl after s = s := by
  induction sops generalizing s with
  | nil => rfl
  | cons sop sops ih =>
    rw [foldl_cons, after_zero (hzero sop mem_cons_self)]
    exact ih (fun t ht => hzero t (mem_cons_of_mem sop ht)) s

lemma semadj_note_zero {sop : Sembuf} (hzero : sop.semOp = 0)
    (un : Option Nat) (pid : Int) (s : State) :
    (note un pid s sop).semadj = s.semadj := by
  unfold note
  rw [hzero]
  split_ifs
  · cases un with
    | none => rfl
    | some u =>
      simp [State.setAdj, State.adj, State.setSempid]
  · rfl

lemma semadj_noteOps_zero (hzero : ∀ sop ∈ sops, sop.semOp = 0)
    (un : Option Nat) (pid : Int) (s : State) :
    (noteOps un pid s sops).semadj = s.semadj := by
  unfold noteOps
  induction sops generalizing s with
  | nil => rfl
  | cons sop sops ih =>
    rw [foldl_cons, ih fun t ht => hzero t (mem_cons_of_mem sop ht)]
    exact semadj_note_zero (hzero sop mem_cons_self) un pid s

lemma sameValues_of_not_alter (halter : q.alter = false) (s : State) :
    SameValues s (tryAtomicSemop s q).2 := by
  have hzero := semOp_eq_zero halter
  obtain ⟨-, hrun⟩ | ⟨-, ret, -, hrun⟩ := tryAtomicSemop_spec s q
  · rw [hrun, foldl_after_zero hzero]
    refine ⟨fun n => semval_noteOps, semadj_noteOps_zero ?_ _ _ _⟩
    intro sop hsop
    exact hzero sop (mem_reverse.mp hsop)
  · rw [hrun]
    exact .refl s

lemma state_of_sleep (h : ¬(tryAtomicSemop s q).1.error ≤ 0) :
    (tryAtomicSemop s q).1 = .sleep ∧ (tryAtomicSemop s q).2 = s := by
  obtain ⟨-, hrun⟩ | ⟨-, ret, -, hrun⟩ := tryAtomicSemop_spec s q
  · rw [hrun] at h
    exact absurd le_rfl h
  rw [hrun] at h ⊢
  refine ⟨?_, rfl⟩
  cases ret with
  | sleep => rfl
  | ok => exact absurd le_rfl h
  | eagain => exact absurd (show Ret.eagain.error ≤ 0 by decide) h
  | erange => exact absurd (show Ret.erange.error ≤ 0 by decide) h

-- == the walk

/-- Each entry is tried once, in the state the ones before it left, and does
not sleep. -/
def Replays : State → List (Request × Ret) → State → Prop
  | s, [], s' => s' = s
  | s, (q, ret) :: woken, s' =>
    ret ≠ .sleep ∧ (tryAtomicSemop s q).1 = ret ∧ Replays (tryAtomicSemop s q).2 woken s'

structure Settled (s : State) (queue : List Request) (out : Updated) : Prop where
  asleep : ∀ q ∈ out.pending, (tryAtomicSemop out.state q).1 = .sleep
  order : out.pending.Sublist queue
  once : (out.woken.map Prod.fst ++ out.pending).Perm queue
  replays : Replays s out.woken out.state

lemma Settled.wake {queue rest : List Request} {out : Updated}
    (h : Settled (tryAtomicSemop s q).2 rest out) (hret : (tryAtomicSemop s q).1.error ≤ 0)
    (hperm : (q :: rest).Perm queue) (hsub : rest.Sublist queue) :
    Settled s queue { out with woken := (q, (tryAtomicSemop s q).1) :: out.woken } := by
  refine ⟨h.asleep, h.order.trans hsub, ?_, ?_, rfl, h.replays⟩
  · rw [map_cons, cons_append]
    exact (h.once.cons q).trans hperm
  · intro hsleep
    rw [hsleep] at hret
    exact absurd hret (by decide)

lemma updateLoop_settled (s : State) (before rest : List Request)
    (hbefore : ∀ q ∈ before, (tryAtomicSemop s q).1 = .sleep) :
    Settled s (before ++ rest) (updateLoop s before rest) := by
  induction s, before, rest using updateLoop.induct with
  | case1 s before =>
    rw [updateLoop, append_nil]
    exact ⟨hbefore, Sublist.refl before, Perm.refl before, rfl⟩
  | case2 s before q rest r hret ihHead ihNext =>
    have hperm : (q :: (before ++ rest)).Perm (before ++ q :: rest) := perm_middle.symm
    have hsub : (before ++ rest).Sublist (before ++ q :: rest) :=
      (sublist_cons_self q rest).append_left before
    rw [updateLoop]
    rw [if_pos hret]
    cases halter : q.alter with
    | true =>
      -- start again at the head of the queue
      exact (ihHead (forall_mem_nil _)).wake hret hperm hsub
    | false =>
      -- nothing changed for the entries passed
      have hsame := sameValues_of_not_alter halter s
      refine (ihNext fun p hp => ?_).wake hret hperm hsub
      exact (hsame.ret p).trans (hbefore p hp)
  | case3 s before q rest r hret ih =>
    obtain ⟨hsleep, hstate⟩ := state_of_sleep hret
    have hr : r.2 = s := hstate
    rw [updateLoop]
    rw [if_neg hret]
    rw [hr] at ih
    rw [hstate]
    have hnext := ih fun p hp => ?_
    · rw [append_assoc] at hnext
      exact hnext
    · rcases mem_append.mp hp with hp | hp
      · exact hbefore p hp
      · rw [mem_singleton.mp hp]
        exact hsleep

lemma updateQueue_settled (s : State) (pending : List Request) :
    Settled s pending (updateQueue s pending) :=
  updateLoop_settled s [] pending (forall_mem_nil _)

-- == values

def applied (woken : List (Request × Ret)) : List Sembuf :=
  (woken.filter (·.2 = .ok)).flatMap (·.1.sops)

lemma applied_cons (q : Request) (ret : Ret) (woken : List (Request × Ret)) :
    applied ((q, ret) :: woken) = (if ret = .ok then q.sops else []) ++ applied woken := by
  unfold applied
  by_cases h : ret = .ok <;> simp [h]

lemma semval_tryAtomicSemop (s : State) (q : Request) (n : Nat) :
    (tryAtomicSemop s q).2.semval n = s.semval n
      + wordTotal (if (tryAtomicSemop s q).1 = .ok then q.sops else []) n := by
  obtain ⟨-, hrun⟩ | ⟨-, ret, hret, hrun⟩ := tryAtomicSemop_spec s q
  · rw [hrun, if_pos rfl]
    rw [semval_noteOps, semval_foldl_after]
  · rw [hrun, if_neg hret]
    simp

lemma State.InRange.tryAtomicSemop (hs : s.InRange) (q : Request) :
    (Sem.tryAtomicSemop s q).2.InRange ∧
    ∀ n, ((Sem.tryAtomicSemop s q).2.semval n).toInt = (s.semval n).toInt
      + total (if (Sem.tryAtomicSemop s q).1 = .ok then q.sops else []) n := by
  obtain ⟨hall, hrun⟩ | ⟨-, ret, hret, hrun⟩ := tryAtomicSemop_spec s q
  · obtain ⟨hrange, hsum, -⟩ := hall.values hs
    rw [hrun, if_pos rfl]
    unfold State.InRange at hrange ⊢
    simp only [semval_noteOps]
    exact ⟨hrange, hsum⟩
  · rw [hrun, if_neg hret]
    exact ⟨hs, fun n => by simp⟩

variable {woken : List (Request × Ret)}

lemma Replays.semval (h : Replays s woken s')
    (n : Nat) : s'.semval n = s.semval n + wordTotal (applied woken) n := by
  induction woken generalizing s with
  | nil =>
    obtain rfl : s' = s := h
    simp [applied]
  | cons entry woken ih =>
    obtain ⟨q, ret⟩ := entry
    obtain ⟨-, rfl, hrest⟩ := h
    rw [ih hrest, semval_tryAtomicSemop, applied_cons, wordTotal_append, BitVec.add_assoc]

lemma Replays.values (h : Replays s woken s') (hs : s.InRange) : s'.InRange ∧
      ∀ n, (s'.semval n).toInt = (s.semval n).toInt + total (applied woken) n := by
  induction woken generalizing s with
  | nil =>
    obtain rfl : s' = s := h
    exact ⟨hs, fun n => by simp [applied]⟩
  | cons entry woken ih =>
    obtain ⟨q, ret⟩ := entry
    obtain ⟨-, rfl, hrest⟩ := h
    obtain ⟨hrange, hsum⟩ := hs.tryAtomicSemop q
    obtain ⟨hlast, hvalue⟩ := ih hrest hrange
    refine ⟨hlast, fun n => ?_⟩
    rw [hvalue, hsum, applied_cons, total_append, add_assoc]

/-- No satisfiable waiter is left asleep: whatever the array and the queue,
`update_queue` returns; every entry still queued would sleep in the state it
leaves; the entries taken off are the others, each tried once, in the state
current at that moment, with a result that is not to sleep; and the values are
the old ones plus the sums of the operations that were applied. -/
theorem updateQueue_leaves_sleepers (s : State) (queue : List Request) :
    ∃ state pending woken, updateQueue s queue = ⟨state, pending, woken⟩ ∧
      (∀ q ∈ pending, (tryAtomicSemop state q).1 = .sleep) ∧
      pending.Sublist queue ∧ (woken.map Prod.fst ++ pending).Perm queue ∧
      Replays s woken state ∧
      (∀ n, state.semval n = s.semval n + wordTotal (applied woken) n) ∧
      (s.InRange → ∀ n, (state.semval n).toInt = (s.semval n).toInt + total (applied woken) n) := by
  have h := updateQueue_settled s queue
  exact ⟨_, _, _, rfl, h.asleep, h.order, h.once, h.replays,
    h.replays.semval, fun hs => (h.replays.values hs).2⟩

-- == semtimedop

/-- An array with its queue; the calls that have returned, oldest first, with what
`try_atomic_semop` gave them, and those that have given up. -/
structure SemArray where
  state : State
  pending : List Request
  returned : List (Request × Ret)
  gaveUp : List Request

/-- An array that nobody has called on. -/
def SemArray.fresh (s : State) : SemArray := ⟨s, [], [], []⟩

/-- What happens to an array: a task calls `semtimedop`, or a sleeping one is
interrupted or times out and takes its entry off the queue. -/
inductive Event where
  | semtimedop (q : Request)
  | leave (i : Nat)

/-- `semtimedop`, from the first try on. The call returns at once, and those it wakes
return behind it; or it is queued. -/
def semtimedop (a : SemArray) (q : Request) : SemArray :=
  let r := tryAtomicSemop a.state q
  if r.1.error ≤ 0 then
    if q.alter ∧ r.1 = .ok then
      let out := updateQueue r.2 a.pending
      ⟨out.state, out.pending, a.returned ++ (q, r.1) :: out.woken, a.gaveUp⟩
    else ⟨r.2, a.pending, a.returned ++ [(q, r.1)], a.gaveUp⟩
  else if q.alter then ⟨r.2, a.pending ++ [q], a.returned, a.gaveUp⟩
  else ⟨r.2, q :: a.pending, a.returned, a.gaveUp⟩

def step (a : SemArray) : Event → SemArray
  | .semtimedop q => semtimedop a q
  | .leave i =>
    { a with pending := a.pending.eraseIdx i, gaveUp := a.pending[i]?.toList ++ a.gaveUp }

def SemArray.Asleep (a : SemArray) : Prop := ∀ q ∈ a.pending, (tryAtomicSemop a.state q).1 = .sleep

lemma SemArray.Asleep.semtimedop {a : SemArray} (h : a.Asleep) (q : Request) :
    (Sem.semtimedop a q).Asleep := by
  unfold Sem.semtimedop
  dsimp only
  split_ifs with hret halter hq
  · exact (updateQueue_settled _ _).asleep
  · -- nothing was altered
    have hsame : SameValues a.state (tryAtomicSemop a.state q).2 := by
      cases hq : q.alter with
      | false => exact sameValues_of_not_alter hq a.state
      | true =>
        obtain ⟨-, hrun⟩ | ⟨-, ret, -, hrun⟩ := tryAtomicSemop_spec a.state q
        · rw [hrun] at halter
          exact absurd ⟨hq, rfl⟩ halter
        · rw [hrun]
          exact .refl a.state
    intro p hp
    rw [hsame.ret]
    exact h p hp
  · obtain ⟨hsleep, hstate⟩ := state_of_sleep hret
    intro p hp
    rw [hstate]
    rcases mem_append.mp hp with hp | hp
    · exact h p hp
    · rw [mem_singleton.mp hp]
      exact hsleep
  · obtain ⟨hsleep, hstate⟩ := state_of_sleep hret
    intro p hp
    rw [hstate]
    rcases mem_cons.mp hp with rfl | hp
    · exact hsleep
    · exact h p hp

/-- Over every run of calls and interruptions, from an empty queue, no queued
operation could go on. -/
theorem run_asleep (s : State) (events : List Event) : (events.foldl step (.fresh s)).Asleep := by
  refine Base.foldl_invariant (I := fun _ a => SemArray.Asleep a) ?_ events [] _ ?_
  · intro _ a e h
    cases e with
    | semtimedop q => exact h.semtimedop q
    | leave i =>
      intro p hp
      exact h p (mem_of_mem_eraseIdx hp)
  · intro p hp
    exact absurd hp not_mem_nil

-- == one after the other

lemma Replays.append {done : List (Request × Ret)} {t : State} (h : Replays s done t)
    (hwoken : Replays t woken s') : Replays s (done ++ woken) s' := by
  induction done generalizing s with
  | nil =>
    obtain rfl : t = s := h
    exact hwoken
  | cons entry done ih => exact ⟨h.1, h.2.1, ih h.2.2⟩

/-- What a call gets done, its own operations first, and what it leaves queued. -/
lemma semtimedop_replays (a : SemArray) (q : Request) :
    ∃ done, (semtimedop a q).returned = a.returned ++ done ∧ (semtimedop a q).gaveUp = a.gaveUp ∧
      Replays a.state done (semtimedop a q).state ∧
      (done.map Prod.fst ++ (semtimedop a q).pending).Perm (q :: a.pending) := by
  have hne (hret : (tryAtomicSemop a.state q).1.error ≤ 0) :
      (tryAtomicSemop a.state q).1 ≠ .sleep := by
    intro hsleep
    rw [hsleep] at hret
    exact absurd hret (by decide)
  unfold semtimedop
  dsimp only
  split_ifs with hret halter hq
  · have hset := updateQueue_settled (tryAtomicSemop a.state q).2 a.pending
    exact ⟨_, rfl, rfl, ⟨hne hret, rfl, hset.replays⟩, hset.once.cons q⟩
  · exact ⟨_, rfl, rfl, ⟨hne hret, rfl, rfl⟩, Perm.refl _⟩
  · exact ⟨[], (append_nil _).symm, rfl, (state_of_sleep hret).2, perm_append_singleton q _⟩
  · exact ⟨[], (append_nil _).symm, rfl, (state_of_sleep hret).2, Perm.refl _⟩

def Event.calls : Event → List Request
  | .semtimedop q => [q]
  | .leave _ => []

/-- The calls that have returned were done one after the other; with those that are
queued, and those that gave up, they are all the calls. -/
structure Serial (s : State) (events : List Event) (a : SemArray) : Prop where
  replays : Replays s a.returned a.state
  all : (a.gaveUp ++ a.returned.map Prod.fst ++ a.pending).Perm (events.flatMap Event.calls)
  length : a.gaveUp.length + (events.flatMap Event.calls).length ≤ events.length

lemma Serial.step {events : List Event} {a : SemArray} (h : Serial s events a) (e : Event) :
    Serial s (e :: events) (Sem.step a e) := by
  obtain ⟨hdone, hperm, hlen⟩ := h
  cases e with
  | semtimedop q =>
    obtain ⟨done, hreturned, hgave, hreplays, hcall⟩ := semtimedop_replays a q
    change Serial s (.semtimedop q :: events) (semtimedop a q)
    refine ⟨?_, ?_, ?_⟩
    · rw [hreturned]
      exact hdone.append hreplays
    · rw [hreturned, hgave, map_append, ← append_assoc, append_assoc _ _ (semtimedop a q).pending]
      exact ((hcall.append_left _).trans perm_middle).trans (hperm.cons q)
    · rw [hgave]
      exact Nat.succ_le_succ hlen
  | leave i =>
    rcases Nat.lt_or_ge i a.pending.length with hi | hi
    · have hgave : a.pending[i]?.toList ++ a.gaveUp = a.pending[i] :: a.gaveUp := by
        rw [List.getElem?_eq_getElem hi]
        rfl
      have hleft := (getElem_cons_eraseIdx_perm hi).append_left
        (a.gaveUp ++ a.returned.map Prod.fst)
      refine ⟨hdone, ?_, ?_⟩
      · show Perm ((a.pending[i]?.toList ++ a.gaveUp) ++ _ ++ a.pending.eraseIdx i) _
        rw [hgave]
        exact (perm_middle.symm.trans hleft).trans hperm
      · show (a.pending[i]?.toList ++ a.gaveUp).length + _ ≤ _
        rw [hgave, length_cons, Nat.succ_add]
        exact Nat.succ_le_succ hlen
    · -- nobody sleeps there
      have hgave : a.pending[i]?.toList ++ a.gaveUp = a.gaveUp := by
        rw [List.getElem?_eq_none hi]
        rfl
      refine ⟨hdone, ?_, ?_⟩
      · show Perm ((a.pending[i]?.toList ++ a.gaveUp) ++ _ ++ a.pending.eraseIdx i) _
        rw [hgave, eraseIdx_of_length_le hi]
        exact hperm
      · show (a.pending[i]?.toList ++ a.gaveUp).length + _ ≤ _
        rw [hgave]
        exact Nat.le_succ_of_le hlen

/-- Over every run of calls and interruptions, from an empty queue, the calls that
have returned might have been made one after the other, with the results they had.
No call is lost or done twice, at most as many gave up as were interrupted, and the
values are the first ones and the sums of the operations that were applied. -/
theorem run_serializes (s : State) (events : List Event) :
    let a := events.foldl step (.fresh s)
    Replays s a.returned a.state ∧
      (a.gaveUp ++ a.returned.map Prod.fst ++ a.pending).Perm (events.flatMap Event.calls) ∧
      a.gaveUp.length + (events.flatMap Event.calls).length ≤ events.length ∧
      (s.InRange → a.state.InRange ∧
        ∀ n, (a.state.semval n).toInt = (s.semval n).toInt + total (applied a.returned) n) := by
  obtain ⟨hdone, hperm, hlen⟩ := Base.foldl_invariant (I := Serial s)
    (fun _ _ e h => h.step e) events [] (.fresh s) ⟨rfl, .nil, Nat.le_refl 0⟩
  have hcalls := (reverse_perm events).flatMap_right Event.calls
  rw [append_nil] at hperm hlen
  rw [hcalls.length_eq, length_reverse] at hlen
  exact ⟨hdone, hperm.trans hcalls, hlen, hdone.values⟩

end BoardStack.Sem
