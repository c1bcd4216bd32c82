/-
Reader/writer semaphores under a spinlock: lib/rwsem-spinlock.c.

Each function runs under `wait_lock`, so a call is one step. A waiter is the
`struct rwsem_waiter` on the stack of the task that sleeps; clearing its
`task` field and waking it is what hands over the lock, here the waiter's
place in a `Grant`. `list_entry` on an empty list is `none`. The `System` around
the semaphore says who holds it: a task from the moment its call succeeds or its
waiter is granted, until it releases. It also keeps a log of who went to sleep and
of what was granted.

`Ok` is what holds between any two calls. Its parts lean on each other: the
last reader hands the write lock to the first waiter without a look at what
that one waits for, which is right because readers with waiters behind them
only exist with a writer at the front (`queue`); and nobody finds the
semaphore free with waiters left (`idle`), so that a new task never overtakes
them.

`activity` has 32 bits. The result is for fewer than `2 ^ 31` locks held or
waited for at a time; with as many readers the count wraps.
-/
import BoardStack.Base.CInt
import BoardStack.Base.Run

namespace BoardStack.Rwsem

open Base

universe u

variable {T : Type u}

/-- `RWSEM_WAITING_FOR_READ`, `RWSEM_WAITING_FOR_WRITE`. -/
inductive Kind
  | read
  | write
deriving DecidableEq, Repr

structure Waiter (T : Type u) where
  task : T
  flags : Kind

structure RwSemaphore (T : Type u) where
  activity : Int
  waitList : List (Waiter T)

/-- The waiters one call wakes, the lock it counts them for, and the queue it
leaves. -/
structure Grant (T : Type u) where
  lock : Kind
  woken : List (Waiter T)
  rest : List (Waiter T)

/-- An `__s32`. -/
def s32 (x : Int) : Int := signed 32 x

-- == waking

/-- The loop of `__rwsem_do_wake`: the readers at the front, and the rest. -/
def wakeReaders : List (Waiter T) → List (Waiter T) × List (Waiter T)
  | [] => ([], [])
  | w :: ws =>
    match w.flags with
    | .read => (w :: (wakeReaders ws).1, (wakeReaders ws).2)
    | .write => ([], w :: ws)

/-- `dont_wake_writers` in `__rwsem_do_wake`. -/
def grantReaders (sem : RwSemaphore T) : Grant T × RwSemaphore T :=
  let (woken, rest) := wakeReaders sem.waitList
  (⟨.read, woken, rest⟩, ⟨s32 (sem.activity + woken.length), rest⟩)

def rwsemDoWake (sem : RwSemaphore T) (wakewrite : Bool) :
    Option (List (Grant T) × RwSemaphore T) :=
  match sem.waitList with
  | [] => none
  | waiter :: rest =>
    if wakewrite = false then
      if waiter.flags = .write then some ([], sem)
      else some ([(grantReaders sem).1], (grantReaders sem).2)
    else if waiter.flags = .write then
      some ([⟨.write, [waiter], rest⟩], ⟨-1, rest⟩)
    else some ([(grantReaders sem).1], (grantReaders sem).2)

/-- `__rwsem_wake_one_writer`: the first waiter, whatever it waits for. -/
def rwsemWakeOneWriter (sem : RwSemaphore T) : Option (List (Grant T) × RwSemaphore T) :=
  match sem.waitList with
  | [] => none
  | waiter :: rest => some ([⟨.write, [waiter], rest⟩], ⟨-1, rest⟩)

-- == calls

def downReadTrylock (sem : RwSemaphore T) : Bool × RwSemaphore T :=
  if sem.activity ≥ 0 ∧ sem.waitList.isEmpty then
    (true, { sem with activity := s32 (sem.activity + 1) })
  else (false, sem)

/-- `__down_read` up to the sleep: whether it was granted at once. -/
def downRead (sem : RwSemaphore T) (task : T) : Bool × RwSemaphore T :=
  if sem.activity ≥ 0 ∧ sem.waitList.isEmpty then
    (true, { sem with activity := s32 (sem.activity + 1) })
  else (false, { sem with waitList := sem.waitList ++ [⟨task, .read⟩] })

def downWriteTrylock (sem : RwSemaphore T) : Bool × RwSemaphore T :=
  if sem.activity = 0 ∧ sem.waitList.isEmpty then
    (true, { sem with activity := -1 })
  else (false, sem)

/-- `__down_write_nested` up to the sleep. -/
def downWrite (sem : RwSemaphore T) (task : T) : Bool × RwSemaphore T :=
  if sem.activity = 0 ∧ sem.waitList.isEmpty then
    (true, { sem with activity := -1 })
  else (false, { sem with waitList := sem.waitList ++ [⟨task, .write⟩] })

def upRead (sem : RwSemaphore T) : Option (List (Grant T) × RwSemaphore T) :=
  let sem := { sem with activity := s32 (sem.activity - 1) }
  if sem.activity = 0 ∧ ¬ sem.waitList.isEmpty then rwsemWakeOneWriter sem
  else some ([], sem)

def upWrite (sem : RwSemaphore T) : Option (List (Grant T) × RwSemaphore T) :=
  let sem := { sem with activity := 0 }
  if ¬ sem.waitList.isEmpty then rwsemDoWake sem true else some ([], sem)

def downgradeWrite (sem : RwSemaphore T) : Option (List (Grant T) × RwSemaphore T) :=
  let sem := { sem with activity := 1 }
  if ¬ sem.waitList.isEmpty then rwsemDoWake sem false else some ([], sem)

-- == the system

/-- The semaphore, the locks held (a task is in the list once for each), and
the log: the waiters in the order they queued, the grants in theirs. -/
structure System (T : Type u) where
  sem : RwSemaphore T
  readers : List T
  writers : List T
  queued : List (Waiter T)
  grants : List (Grant T)

/-- `__init_rwsem`. -/
def System.init : System T := ⟨⟨0, []⟩, [], [], [], []⟩

def System.grant (s : System T) (g : Grant T) : System T :=
  match g.lock with
  | .read =>
    { s with
      readers := s.readers ++ g.woken.map Waiter.task
      grants := s.grants ++ [g] }
  | .write =>
    { s with
      writers := s.writers ++ g.woken.map Waiter.task
      grants := s.grants ++ [g] }

inductive Event (T : Type u)
  | downRead (t : T)
  | downReadTrylock (t : T)
  | downWrite (t : T)
  | downWriteTrylock (t : T)
  | upRead (t : T)
  | upWrite (t : T)
  | downgradeWrite (t : T)

def Event.task : Event T → T
  | .downRead t | .downReadTrylock t | .downWrite t | .downWriteTrylock t
  | .upRead t | .upWrite t | .downgradeWrite t => t

/-- The task sleeps in an earlier call. -/
def System.Asleep (s : System T) (t : T) : Prop := t ∈ s.sem.waitList.map Waiter.task

def System.release (s : System T) (r : Option (List (Grant T) × RwSemaphore T)) :
    Option (Bool × System T) :=
  r.map fun (gs, sem) => (true, gs.foldl System.grant { s with sem := sem })

def System.hold (s : System T) (k : Kind) (t : T) : System T :=
  match k with
  | .read => { s with readers := t :: s.readers }
  | .write => { s with writers := t :: s.writers }

/-- What a call for the lock leaves: the lock, or a waiter in the queue. -/
def System.lock (s : System T) (k : Kind) (t : T) (r : Bool × RwSemaphore T) : System T :=
  if r.1 then { s with sem := r.2 }.hold k t
  else { s with sem := r.2, queued := s.queued ++ [⟨t, k⟩] }

def System.trylock (s : System T) (k : Kind) (t : T) (r : Bool × RwSemaphore T) : System T :=
  if r.1 then { s with sem := r.2 }.hold k t else { s with sem := r.2 }

/-- One call: whether the lock was obtained at once, for those that ask for
it. -/
def step [DecidableEq T] (s : System T) : Event T → Option (Bool × System T)
  | .downRead t =>
    some ((downRead s.sem t).1, s.lock .read t (downRead s.sem t))
  | .downReadTrylock t =>
    some ((downReadTrylock s.sem).1, s.trylock .read t (downReadTrylock s.sem))
  | .downWrite t =>
    some ((downWrite s.sem t).1, s.lock .write t (downWrite s.sem t))
  | .downWriteTrylock t =>
    some ((downWriteTrylock s.sem).1, s.trylock .write t (downWriteTrylock s.sem))
  | .upRead t =>
    System.release { s with readers := s.readers.erase t } (upRead s.sem)
  | .upWrite t =>
    System.release { s with writers := s.writers.erase t } (upWrite s.sem)
  | .downgradeWrite t =>
    System.release { s with
      writers := s.writers.erase t
      readers := t :: s.readers } (downgradeWrite s.sem)

open List

variable {T : Type u}

-- == the invariant

/-- A grant is one writer, or all the readers up to the next writer, and each
of them waited for the lock it gets. -/
structure Grant.Fair (g : Grant T) : Prop where
  nonempty : g.woken ≠ []
  kind : ∀ w ∈ g.woken, w.flags = g.lock
  alone : g.lock = .write → g.woken.length = 1
  together : g.lock = .read → ∀ w, g.rest.head? = some w → w.flags = .write

def System.locks (s : System T) : Nat := s.readers.length + s.writers.length + s.sem.waitList.length

/-- The log fits the queue: what queued was granted in that order or still
waits, no task waits twice, and there are not too many. -/
structure Logged (s : System T) : Prop where
  fifo : s.queued = (s.grants.map Grant.woken).flatten ++ s.sem.waitList
  fair : ∀ g ∈ s.grants, g.Fair
  asleep : (s.sem.waitList.map Waiter.task).Nodup
  few : s.locks < 2 ^ 31

structure Ok (s : System T) : Prop extends Logged s where
  holders : (s.writers = [] ∧ s.sem.activity = s.readers.length) ∨
    (s.readers = [] ∧ s.writers.length = 1 ∧ s.sem.activity = -1)
  queue : s.readers ≠ [] → ∀ w, s.sem.waitList.head? = some w → w.flags = .write
  idle : s.readers = [] → s.writers = [] → s.sem.waitList = []

/-- A task calls when it is awake, and releases what it holds. -/
def Legal (s : System T) (e : Event T) : Prop :=
  ¬ s.Asleep e.task ∧
    match e with
    | .upRead t => t ∈ s.readers
    | .upWrite t => t ∈ s.writers
    | .downgradeWrite t => t ∈ s.writers
    | _ => True

lemma s32_eq {x : Int} (hlo : -2 ^ 31 ≤ x) (hhi : x < 2 ^ 31) : s32 x = x :=
  signed_eq (w := 31) hlo hhi

-- == waking

lemma wakeReaders_spec (l : List (Waiter T)) :
    l = (wakeReaders l).1 ++ (wakeReaders l).2 ∧ (∀ w ∈ (wakeReaders l).1, w.flags = .read) ∧
      ∀ w, (wakeReaders l).2.head? = some w → w.flags = .write := by
  induction l with
  | nil => exact ⟨rfl, by simp [wakeReaders], by simp [wakeReaders]⟩
  | cons w ws ih =>
    obtain ⟨hsplit, hread, hrest⟩ := ih
    cases hw : w.flags with
    | read =>
      simp only [wakeReaders, hw]
      refine ⟨?_, fun v hv => ?_, hrest⟩
      · rw [cons_append, ← hsplit]
      · rcases mem_cons.mp hv with rfl | hv
        · exact hw
        · exact hread v hv
    | write =>
      simp only [wakeReaders, hw]
      refine ⟨rfl, by simp, fun v hv => ?_⟩
      obtain rfl : w = v := by simpa using hv
      exact hw

variable {ws : List (Waiter T)} {w : Waiter T}

lemma grantReaders_fair {sem : RwSemaphore T} (hlist : sem.waitList = w :: ws)
    (hw : w.flags = .read) : (grantReaders sem).1.Fair := by
  obtain ⟨-, hread, hrest⟩ := wakeReaders_spec sem.waitList
  refine ⟨?_, hread, fun h => (by cases h), fun _ => hrest⟩
  show (wakeReaders sem.waitList).1 ≠ []
  simp [hlist, wakeReaders, hw]

lemma release_one (s : System T) (g : Grant T) (sem : RwSemaphore T) :
    s.release (some ([g], sem)) = some (true, System.grant { s with sem := sem } g) := rfl

section

variable (sem : RwSemaphore T) {w : Waiter T} {ws : List (Waiter T)}

lemma rwsemDoWake_writer (hlist : sem.waitList = w :: ws) (hw : w.flags = .write) :
    rwsemDoWake sem true = some ([⟨.write, [w], ws⟩], ⟨-1, ws⟩) := by
  unfold rwsemDoWake
  rw [hlist]
  simp [hw]

lemma rwsemDoWake_no_writer (hlist : sem.waitList = w :: ws)
    (hw : w.flags = .write) : rwsemDoWake sem false = some ([], sem) := by
  unfold rwsemDoWake
  rw [hlist]
  simp [hw]

lemma rwsemDoWake_readers (hlist : sem.waitList = w :: ws)
    (hw : w.flags = .read) (wakewrite : Bool) :
    rwsemDoWake sem wakewrite = some ([(grantReaders sem).1], (grantReaders sem).2) := by
  unfold rwsemDoWake
  rw [hlist]
  simp [hw]

end

-- == the steps

section

variable {s : System T} {t : T}

lemma Ok.sleep (h : Ok s) (k : Kind) (ht : ¬ s.Asleep t)
    (hbusy : s.sem.waitList = [] → s.readers ≠ [] → k = .write)
    (hheld : s.readers ≠ [] ∨ s.writers ≠ []) (hfew : s.locks + 1 < 2 ^ 31) :
    Ok { s with
      sem := { s.sem with waitList := s.sem.waitList ++ [⟨t, k⟩] }
      queued := s.queued ++ [⟨t, k⟩] } := by
  refine ⟨⟨?_, h.fair, ?_, ?_⟩, h.holders, fun hr w hw => ?_, fun hr hwr => ?_⟩
  · show s.queued ++ _ = _ ++ (s.sem.waitList ++ _)
    rw [h.fifo, append_assoc]
  · show ((s.sem.waitList ++ [_]).map Waiter.task).Nodup
    rw [map_append, nodup_append]
    refine ⟨h.asleep, by simp, fun a ha b hb => ?_⟩
    obtain rfl : b = t := by simpa using hb
    exact fun e => ht (e ▸ ha)
  · show _ + _ + (s.sem.waitList ++ [_]).length < _
    rw [length_append, length_singleton]
    exact hfew
  · cases hlist : s.sem.waitList with
    | nil =>
      simp only [hlist, nil_append, List.head?_cons, Option.some.injEq] at hw
      rw [← hw]
      exact hbusy hlist hr
    | cons v vs =>
      apply h.queue hr
      simpa [hlist] using hw
  · rcases hheld with hheld | hheld
    · exact absurd hr hheld
    · exact absurd hwr hheld

lemma Ok.read (h : Ok s) (t : T) (hact : s.sem.activity ≥ 0)
    (hlist : s.sem.waitList = []) (hfew : s.locks + 1 < 2 ^ 31) :
    Ok { s with
      sem := { s.sem with activity := s32 (s.sem.activity + 1) }
      readers := t :: s.readers } := by
  have hlen : s.readers.length + 1 + s.writers.length + s.sem.waitList.length < 2 ^ 31 := by
    unfold System.locks at hfew
    omega
  rcases h.holders with ⟨hwr, hcount⟩ | ⟨-, -, hneg⟩
  · refine ⟨⟨h.fifo, h.fair, h.asleep, hlen⟩, .inl ⟨hwr, ?_⟩,
      fun _ w hw => ?_, fun hr => by cases hr⟩
    · show s32 _ = ((t :: s.readers).length : Int)
      rw [hcount, s32_eq (by omega) (by omega), length_cons]
      rfl
    · simp [hlist] at hw
  · omega

lemma Ok.write (h : Ok s) (t : T) (hact : s.sem.activity = 0) (hfew : s.locks + 1 < 2 ^ 31) :
    Ok { s with
      sem := { s.sem with activity := -1 }
      writers := t :: s.writers } := by
  have hlen : s.readers.length + (s.writers.length + 1) + s.sem.waitList.length < 2 ^ 31 := by
    unfold System.locks at hfew
    omega
  rcases h.holders with ⟨hwr, hcount⟩ | ⟨-, -, hneg⟩
  · have hr : s.readers = [] := by
      apply eq_nil_of_length_eq_zero
      omega
    refine ⟨⟨h.fifo, h.fair, h.asleep, hlen⟩, .inr ⟨hr, ?_, rfl⟩,
      fun hr' => absurd hr hr', fun _ hw => by cases hw⟩
    show (t :: s.writers).length = 1
    rw [hwr]
    rfl
  · omega

lemma Logged.grant {woken rest : List (Waiter T)} {k : Kind} {activity : Int} (h : Logged s)
    (hlist : s.sem.waitList = woken ++ rest) (hfair : (⟨k, woken, rest⟩ : Grant T).Fair) :
    Logged (System.grant { s with sem := ⟨activity, rest⟩ } ⟨k, woken, rest⟩) := by
  have hfifo : s.queued = ((s.grants ++ [(⟨k, woken, rest⟩ : Grant T)]).map
          Grant.woken).flatten ++ rest := by
    rw [h.fifo, hlist]
    simp
  have hall : ∀ g ∈ s.grants ++ [⟨k, woken, rest⟩], g.Fair := by
    exact forall_mem_append.mpr ⟨h.fair, forall_mem_singleton.mpr hfair⟩
  have hasleep : (rest.map Waiter.task).Nodup := by
    have := h.asleep
    rw [hlist, map_append] at this
    exact (nodup_append.mp this).2.1
  have hfew := h.few
  unfold System.locks at hfew
  rw [hlist, length_append] at hfew
  cases k with
  | read =>
    refine ⟨hfifo, hall, hasleep, ?_⟩
    show (s.readers ++ woken.map Waiter.task).length + s.writers.length + rest.length < _
    rw [length_append, length_map]
    omega
  | write =>
    refine ⟨hfifo, hall, hasleep, ?_⟩
    show s.readers.length + (s.writers ++ woken.map Waiter.task).length + rest.length < _
    rw [length_append, length_map]
    omega

lemma Logged.grantWriter (h : Logged s) (hlist : s.sem.waitList = w :: ws)
    (hw : w.flags = .write) (hr : s.readers = []) (hwr : s.writers = []) :
    Ok (System.grant { s with sem := ⟨-1, ws⟩ } ⟨.write, [w], ws⟩) := by
  have hfair : (⟨.write, [w], ws⟩ : Grant T).Fair :=
    ⟨by simp, by simpa using hw, fun _ => rfl, fun e => by cases e⟩
  refine ⟨h.grant hlist hfair, .inr ⟨hr, ?_, rfl⟩, fun hr' => absurd hr hr', fun _ hwr' => ?_⟩
  · show (s.writers ++ [w.task]).length = 1
    rw [hwr]
    rfl
  · have hwr' : s.writers ++ [w.task] = [] := hwr'
    simp at hwr'

lemma Logged.grantReaders (h : Logged s) (hlist : s.sem.waitList = w :: ws) (hw : w.flags = .read)
    (hact : s.sem.activity = s.readers.length) (hwr : s.writers = []) :
    Ok (System.grant { s with sem := (grantReaders s.sem).2 } (grantReaders s.sem).1) := by
  obtain ⟨hsplit, -, hrest⟩ := wakeReaders_spec s.sem.waitList
  have hfair := grantReaders_fair hlist hw
  have hfew := h.few
  unfold System.locks at hfew
  rw [hsplit, length_append] at hfew
  have hlen : ((s.readers ++ (wakeReaders s.sem.waitList).1.map Waiter.task).length : Int)
      = s.readers.length + (wakeReaders s.sem.waitList).1.length := by
    rw [length_append, length_map]
    rfl
  refine ⟨h.grant hsplit hfair, .inl ⟨hwr, ?_⟩, fun _ => hrest, fun hr => ?_⟩
  · show s32 (s.sem.activity + _) = ((s.readers ++
      (wakeReaders s.sem.waitList).1.map Waiter.task).length : Int)
    rw [hlen, hact, s32_eq (by omega) (by omega)]
  · have hr : s.readers ++ (wakeReaders s.sem.waitList).1.map Waiter.task = [] := hr
    rw [append_eq_nil_iff, map_eq_nil_iff] at hr
    exact absurd hr.2 hfair.nonempty

/-- A writer that is woken finds the lock free, readers find no writer. -/
lemma Logged.wake {wakewrite : Bool} (h : Logged s) (hact : s.sem.activity = s.readers.length)
    (hwr : s.writers = []) (hwake : wakewrite = true ↔ s.readers = []) :
    ∃ s', s.release (if ¬s.sem.waitList.isEmpty then rwsemDoWake s.sem wakewrite
        else some ([], s.sem)) = some (true, s') ∧ Ok s' := by
  cases hlist : s.sem.waitList with
  | nil => exact ⟨s, rfl, h, .inl ⟨hwr, hact⟩, by simp [hlist], fun _ _ => hlist⟩
  | cons w ws =>
    rw [if_pos (by simp)]
    cases hw : w.flags with
    | read =>
      rw [rwsemDoWake_readers _ hlist hw, release_one]
      exact ⟨_, rfl, h.grantReaders hlist hw hact hwr⟩
    | write =>
      cases wakewrite with
      | true =>
        rw [rwsemDoWake_writer _ hlist hw, release_one]
        exact ⟨_, rfl, h.grantWriter hlist hw (hwake.mp rfl) hwr⟩
      | false =>
        rw [rwsemDoWake_no_writer _ hlist hw]
        refine ⟨s, rfl, h, .inl ⟨hwr, hact⟩, fun _ v hv => ?_,
          fun hr => absurd (hwake.mpr hr) (by decide)⟩
        rw [hlist] at hv
        obtain rfl : w = v := by simpa using hv
        exact hw

end

-- == a call

section

variable [DecidableEq T] {s : System T} {t : T}

omit [DecidableEq T] in
lemma Ok.held_of_not_read (h : Ok s) (hno : ¬ (s.sem.activity ≥ 0 ∧ s.sem.waitList.isEmpty)) :
    (s.sem.waitList = [] → s.readers ≠ [] → Kind.read = .write) ∧
      (s.readers ≠ [] ∨ s.writers ≠ []) := by
  rw [List.isEmpty_iff] at hno
  rcases h.holders with ⟨hwr, hcount⟩ | ⟨hr, hone, -⟩
  · have hlist : s.sem.waitList ≠ [] := fun e => hno ⟨by omega, e⟩
    refine ⟨fun e => absurd e hlist, .inl fun hr => hlist ?_⟩
    exact h.idle hr hwr
  · refine ⟨fun _ hr' => absurd hr hr', .inr fun hwr => ?_⟩
    simp [hwr] at hone

omit [DecidableEq T] in
lemma Ok.held_of_not_write (h : Ok s) (hno : ¬ (s.sem.activity = 0 ∧ s.sem.waitList.isEmpty)) :
    s.readers ≠ [] ∨ s.writers ≠ [] := by
  rw [List.isEmpty_iff] at hno
  by_contra hfree
  rw [not_or, not_not, not_not] at hfree
  rcases h.holders with ⟨-, hcount⟩ | ⟨-, hone, -⟩
  · refine hno ⟨?_, h.idle hfree.1 hfree.2⟩
    rw [hcount, hfree.1]
    rfl
  · simp [hfree.2] at hone

lemma step_upRead (h : Ok s) (ht : t ∈ s.readers) :
    ∃ s', step s (.upRead t) = some (true, s') ∧ Ok s' := by
  obtain ⟨hwr, hcount⟩ : s.writers = [] ∧ s.sem.activity = s.readers.length := by
    rcases h.holders with h | ⟨hr, -⟩
    · exact h
    · simp [hr] at ht
  have hlen : (s.readers.erase t).length + 1 = s.readers.length := by
    have hpos := length_pos_of_mem ht
    rw [length_erase_of_mem ht]
    omega
  have hfew := h.few
  unfold System.locks at hfew
  have hact : s32 (s.sem.activity - 1) = (s.readers.erase t).length := by
    rw [hcount, s32_eq (by omega) (by omega)]
    omega
  have hlog : Logged { s with readers := s.readers.erase t } := ⟨h.fifo, h.fair, h.asleep, by
      show (s.readers.erase t).length + s.writers.length + s.sem.waitList.length < _
      omega⟩
  have hne : s.readers ≠ [] := ne_nil_of_mem ht
  unfold step System.release upRead
  simp only [hact]
  by_cases hwake : ((s.readers.erase t).length : Int) = 0 ∧ ¬ s.sem.waitList.isEmpty
  · -- the last reader wakes the first waiter, which is a writer
    rw [if_pos hwake]
    have hlast : s.readers.erase t = [] := eq_nil_of_length_eq_zero (by omega)
    cases hlist : s.sem.waitList with
    | nil => exact absurd (by rw [hlist]; rfl) hwake.2
    | cons w ws =>
      have hw : w.flags = .write := h.queue hne w (by rw [hlist]; rfl)
      exact ⟨_, rfl, hlog.grantWriter hlist hw hlast hwr⟩
  · rw [if_neg hwake]
    refine ⟨_, rfl, ⟨hlog.fifo, hlog.fair, hlog.asleep, hlog.few⟩,
      .inl ⟨hwr, rfl⟩, fun _ => h.queue hne, fun hr _ => ?_⟩
    have hr : s.readers.erase t = [] := hr
    by_contra hlist
    refine hwake ⟨by rw [hr]; rfl, ?_⟩
    rwa [List.isEmpty_iff]

lemma Ok.writer (h : Ok s) (ht : t ∈ s.writers) : s.readers = [] ∧ s.writers.erase t = [] := by
  rcases h.holders with ⟨hwr, -⟩ | ⟨hr, hone, -⟩
  · simp [hwr] at ht
  · refine ⟨hr, eq_nil_of_length_eq_zero ?_⟩
    rw [length_erase_of_mem ht, hone]

lemma step_upWrite (h : Ok s) (ht : t ∈ s.writers) :
    ∃ s', step s (.upWrite t) = some (true, s') ∧ Ok s' := by
  obtain ⟨hr, hwr⟩ := h.writer ht
  have hfew := h.few
  unfold System.locks at hfew
  have hlog : Logged { s with
      sem := { s.sem with activity := 0 }
      writers := s.writers.erase t } := ⟨h.fifo, h.fair, h.asleep, by
      show s.readers.length + (s.writers.erase t).length + s.sem.waitList.length < _
      rw [hwr, length_nil]
      omega⟩
  exact hlog.wake (by rw [hr]; rfl) hwr ⟨fun _ => hr, fun _ => rfl⟩

lemma step_downgradeWrite (h : Ok s) (ht : t ∈ s.writers) :
    ∃ s', step s (.downgradeWrite t) = some (true, s') ∧ Ok s' := by
  obtain ⟨hr, hwr⟩ := h.writer ht
  have hfew := h.few
  unfold System.locks at hfew
  have hpos := length_pos_of_mem ht
  have hlog : Logged { s with
      sem := { s.sem with activity := 1 }
      writers := s.writers.erase t
      readers := t :: s.readers } := ⟨h.fifo, h.fair, h.asleep, by
      show (t :: s.readers).length + (s.writers.erase t).length + s.sem.waitList.length < _
      rw [hwr, length_nil, length_cons]
      omega⟩
  exact hlog.wake (by rw [hr]; rfl) hwr (by simp)

/-- A call that takes the lock or waits for it finds room for one more. -/
def Room (s : System T) : Event T → Prop
  | .downRead _ | .downWrite _ => s.locks + 1 < 2 ^ 31
  | .downReadTrylock _ => s.sem.activity ≥ 0 ∧ s.sem.waitList.isEmpty → s.locks + 1 < 2 ^ 31
  | .downWriteTrylock _ => s.sem.activity = 0 ∧ s.sem.waitList.isEmpty → s.locks + 1 < 2 ^ 31
  | _ => True

lemma step_ok (h : Ok s) {e : Event T} (hlegal : Legal s e) (hroom : Room s e) :
    ∃ r s', step s e = some (r, s') ∧ Ok s' := by
  obtain ⟨hawake, hheld⟩ := hlegal
  cases e with
  | downRead t =>
    by_cases hok : s.sem.activity ≥ 0 ∧ s.sem.waitList.isEmpty
    · exact ⟨true, _, by rw [step, downRead, if_pos hok]; rfl,
        h.read t hok.1 (List.isEmpty_iff.mp hok.2) hroom⟩
    · obtain ⟨hbusy, hheld⟩ := h.held_of_not_read hok
      exact ⟨false, _, by rw [step, downRead, if_neg hok]; rfl,
        h.sleep .read hawake hbusy hheld hroom⟩
  | downReadTrylock t =>
    by_cases hok : s.sem.activity ≥ 0 ∧ s.sem.waitList.isEmpty
    · exact ⟨true, _, by rw [step, downReadTrylock, if_pos hok]; rfl,
        h.read t hok.1 (List.isEmpty_iff.mp hok.2) (hroom hok)⟩
    · exact ⟨false, _, by rw [step, downReadTrylock, if_neg hok]; rfl, h⟩
  | downWrite t =>
    by_cases hok : s.sem.activity = 0 ∧ s.sem.waitList.isEmpty
    · exact ⟨true, _, by rw [step, downWrite, if_pos hok]; rfl, h.write t hok.1 hroom⟩
    · exact ⟨false, _, by rw [step, downWrite, if_neg hok]; rfl,
        h.sleep .write hawake (fun _ _ => rfl) (h.held_of_not_write hok) hroom⟩
  | downWriteTrylock t =>
    by_cases hok : s.sem.activity = 0 ∧ s.sem.waitList.isEmpty
    · exact ⟨true, _, by rw [step, downWriteTrylock, if_pos hok]; rfl,
        h.write t hok.1 (hroom hok)⟩
    · exact ⟨false, _, by rw [step, downWriteTrylock, if_neg hok]; rfl, h⟩
  | upRead t =>
    obtain ⟨s', hs', hok⟩ := step_upRead h hheld
    exact ⟨true, s', hs', hok⟩
  | upWrite t =>
    obtain ⟨s', hs', hok⟩ := step_upWrite h hheld
    exact ⟨true, s', hs', hok⟩
  | downgradeWrite t =>
    obtain ⟨s', hs', hok⟩ := step_downgradeWrite h hheld
    exact ⟨true, s', hs', hok⟩

end

-- == whole runs

lemma init_ok : Ok (System.init : System T) := by
  refine ⟨⟨rfl, ?_, nodup_nil, Nat.two_pow_pos 31⟩, .inl ⟨rfl, rfl⟩,
    fun h => absurd rfl h, fun _ _ => rfl⟩
  intro g hg
  cases hg

/-- Every interleaving of calls in which tasks release what they hold, and take or wait
for fewer than `2 ^ 31` locks at a time, runs to its end; then there is
one writer or only readers, `activity` counts them, the queue was served in
its order, each grant to one writer or to all the readers up to the next one,
and readers have a writer at the front of the queue behind them. -/
theorem rwsem_excludes [DecidableEq T] {es : List (Event T)}
    (hok : Permitted step (fun _ s e => Legal s e ∧ Room s e) [] System.init es) :
    ∃ rs s', run step System.init es = some (rs, s') ∧ Ok s' := by
  have hstep : ∀ (past : List (Event T)) (s : System T) (e : Event T),
      Ok s → (Legal s e ∧ Room s e) →
      ∃ r s', step s e = some (r, s') ∧ True ∧ Ok s' := by
    intro past s e h hpre
    obtain ⟨r, s', hs', hok'⟩ := step_ok h hpre.1 hpre.2
    exact ⟨r, s', hs', trivial, hok'⟩
  obtain ⟨rs, s', hrun, -, hok'⟩ := run_invariant hstep es [] System.init init_ok hok
  exact ⟨rs, s', hrun, hok'⟩

/-- A reader that has to wait for a writer. -/
theorem rwsem_excludes_waiting :
    ∃ rs s', run step System.init [Event.downWrite 1, .downRead 2] = some (rs, s') ∧ Ok s' := by
  apply rwsem_excludes
  refine ⟨⟨⟨by simp [System.Asleep, System.init], trivial⟩, ?_⟩, fun r s' hs => ?_⟩
  · show System.locks _ + 1 < 2 ^ 31
    decide
  cases hs
  refine ⟨⟨⟨fun hmem => ?_, trivial⟩, ?_⟩, fun _ _ _ => trivial⟩
  · cases hmem
  · show System.locks _ + 1 < 2 ^ 31
    decide

-- == overflow

def readersOnly (ts : List T) : System T := ⟨⟨s32 ts.length, []⟩, ts, [], [], []⟩

lemma step_readersOnly [DecidableEq T] {ts : List T} (h : ts.length < 2 ^ 31) (t : T) :
    step (readersOnly ts) (.downRead t) = some (true, readersOnly (t :: ts)) := by
  have hlen : s32 (ts.length : Int) = ts.length := s32_eq (by omega) (by omega)
  have hgrant : downRead (⟨s32 ts.length, []⟩ : RwSemaphore T) t
      = (true, ⟨s32 (t :: ts).length, []⟩) := by
    unfold downRead
    rw [hlen, if_pos ⟨Int.natCast_nonneg _, rfl⟩, length_cons, Int.natCast_succ]
  unfold readersOnly
  rw [step, hgrant]
  rfl

lemma run_readersOnly [DecidableEq T] (ts : List T) :
    ∀ (past : List (Event T)) (held : List T),
    held.length + ts.length ≤ 2 ^ 31 →
    Permitted step (fun _ s e => Legal s e) past (readersOnly held) (ts.map Event.downRead) ∧
      ∃ rs, run step (readersOnly held) (ts.map Event.downRead)
        = some (rs, readersOnly (ts.reverse ++ held)) := by
  induction ts with
  | nil => exact fun _ held _ => ⟨trivial, [], rfl⟩
  | cons t ts ih =>
    intro past held hlen
    rw [length_cons] at hlen
    have hstep := step_readersOnly (show held.length < 2 ^ 31 by omega) t
    obtain ⟨hok, rs, hrun⟩ := ih (.downRead t :: past) (t :: held) (by rw [length_cons]; omega)
    refine ⟨⟨⟨by simp [System.Asleep, readersOnly], trivial⟩, fun o s' hs => ?_⟩, true :: rs, ?_⟩
    · rw [hstep] at hs
      cases hs
      exact hok
    · rw [map_cons, reverse_cons, append_assoc, singleton_append]
      simp only [run, hstep, hrun]

/-- With `2 ^ 31` readers, each a task of its own, `activity` is negative. -/
theorem activity_overflows :
    ∃ (es : List (Event Nat)) (rs : List Bool) (s' : System Nat),
      Permitted step (fun _ s e => Legal s e) [] System.init es ∧
      run step System.init es = some (rs, s') ∧ s'.readers.Nodup ∧
      s'.readers.length = 2 ^ 31 ∧ s'.sem.activity = -2 ^ 31 := by
  have htasks : ∀ n, ∃ ts : List Nat, ts.length = n ∧ ts.Nodup :=
    fun n => ⟨List.range n, length_range, nodup_range⟩
  obtain ⟨ts, hlen, hnd⟩ := htasks (2 ^ 31)
  obtain ⟨hok, rs, hrun⟩ := run_readersOnly ts [] []
    (by rw [length_nil, zero_add]; exact le_of_eq hlen)
  rw [append_nil] at hrun
  have hlen' : ts.reverse.length = 2 ^ 31 := by rw [length_reverse, hlen]
  have hact : (readersOnly ts.reverse).sem.activity = -2 ^ 31 := by
    unfold readersOnly
    dsimp only
    rw [hlen']
    decide
  have hinit : (readersOnly [] : System Nat) = System.init := by
    unfold readersOnly System.init
    rw [length_nil, show s32 ((0 : Nat) : Int) = 0 by decide]
  exact ⟨_, rs, _, hok, hrun, pairwise_reverse.mpr (hnd.imp fun h => h.symm), hlen', hact⟩

end BoardStack.Rwsem
