/-
The range of a lock as `fcntl` is given it (fs/locks.c).

`flock_to_posix_lock` and `flock64_to_posix_lock` turn a start, which may be
relative, and a length, which may be negative, into the first and last byte of a
lock. They differ in the width of the sums. `exactLock` is what the sums come to
on unbounded integers.
-/
import BoardStack.Base.CInt
import BoardStack.Locks.Basic

namespace BoardStack.Locks

open Base

def einval : Int := 22

def eoverflow : Int := 75

/-- `l_whence`. -/
inductive Whence where
  | seekSet
  | seekCur
  | seekEnd
  | other

structure File where
  fPos : Int
  iSize : Int
  pos_mem : 0 ≤ fPos ∧ fPos ≤ offsetMax
  size_mem : 0 ≤ iSize ∧ iSize ≤ offsetMax

/-- `struct flock`, with offsets of `w + 1` bits; `none` is no type. -/
structure Flock (w : Nat) where
  lType : Option LockType
  lWhence : Whence
  lStart : Int
  lLen : Int
  start_mem : -2 ^ w ≤ lStart ∧ lStart < 2 ^ w
  len_mem : -2 ^ w ≤ lLen ∧ lLen < 2 ^ w

/-- What `l_start` is relative to. -/
def Whence.base (file : File) : Whence → Option Int
  | .seekSet => some 0
  | .seekCur => some file.fPos
  | .seekEnd => some file.iSize
  | .other => none

variable {O : Type} {w : Nat} (files : O) (file : File) (l : Flock w) (type : LockType) (base : Int)

/-- `flock_to_posix_lock`, with an `off_t` of `w + 1` bits. -/
def flockToPosixLock : Except Int (Lock O) :=
  match l.lWhence.base file with
  | none => .error (-einval)
  | some base =>
    let start := signed (w + 1) (signed (w + 1) base + l.lStart)
    if start < 0 then .error (-einval)
    else
      let end_ :=
        if l.lLen > 0 then signed (w + 1) (start + l.lLen - 1)
        else if l.lLen < 0 then signed (w + 1) (start - 1)
        else offsetMax
      let start := if l.lLen < 0 then signed (w + 1) (start + l.lLen) else start
      if l.lLen < 0 ∧ start < 0 then .error (-einval)
      else if end_ < start then .error (-eoverflow)
      else
        match l.lType with
        | none => .error (-einval)
        | some type => .ok ⟨files, type, start, end_⟩

def flock64ToPosixLock (l : Flock 63) : Except Int (Lock O) := flockToPosixLock files file l

/-- The lock of the bytes that a `struct flock` stands for if they are counted from
`x`. -/
def lockFrom (x : Int) : Lock O :=
  if l.lLen > 0 then ⟨files, type, x, x + l.lLen - 1⟩
  else if l.lLen < 0 then ⟨files, type, x + l.lLen, x - 1⟩
  else ⟨files, type, x, offsetMax⟩

/-- The lock of the bytes that a `struct flock` stands for. -/
def exactLock : Lock O := lockFrom files l type (base + l.lStart)

/-- What is refused of bytes that are counted from `start`: those that begin before
the file, or end behind what an `off_t` can say. -/
def Refused (start : Int) : Prop :=
  start < 0 ∨ 2 ^ w < start + l.lLen ∨ l.lLen < 0 ∧ start + l.lLen < 0

/-- The sum of base and start fits, and so does the end unless it is behind every
file; or it does not fit, and neither the bytes meant nor those it wraps to are
locked. -/
def SumsFit : Prop :=
  let x := base + l.lStart
  x < 2 ^ w ∧ (0 ≤ x → x + l.lLen ≤ 2 ^ w ∨ 2 ^ 63 < x + l.lLen) ∨
    2 ^ w ≤ x ∧ ¬Valid (exactLock files l type base) ∧ Refused l (signed (w + 1) x)

variable {files file l type base}

lemma Whence.base_nonneg {whence : Whence} (h : whence.base file = some base) : 0 ≤ base := by
  cases whence with
  | seekSet => exact Option.some.inj h ▸ le_rfl
  | seekCur => exact Option.some.inj h ▸ file.pos_mem.1
  | seekEnd => exact Option.some.inj h ▸ file.size_mem.1
  | other => cases h

lemma valid_iff (start end_ : Int) : Valid (⟨files, type, start, end_⟩ : Lock O) ↔
    0 ≤ start ∧ start ≤ end_ ∧ end_ ≤ offsetMax :=
  ⟨fun h => ⟨h.nonneg, h.le, h.le_max⟩, fun h => ⟨h.1, h.2.1, h.2.2⟩⟩

lemma valid_lockFrom_iff (files : O) (l : Flock w) (type : LockType) (x : Int) :
    Valid (lockFrom files l type x) ↔
    if l.lLen > 0 then 0 ≤ x ∧ x + l.lLen ≤ 2 ^ 63
    else if l.lLen < 0 then 0 ≤ x + l.lLen ∧ x ≤ 2 ^ 63
    else 0 ≤ x ∧ x < 2 ^ 63 := by
  have hmax : offsetMax = 2 ^ 63 - 1 := rfl
  unfold lockFrom
  split_ifs
  all_goals
    rw [valid_iff]
    omega

lemma lockFrom_inj {x y : Int} (h : lockFrom files l type x = lockFrom files l type y) : x = y := by
  unfold lockFrom at h
  split_ifs at h
  all_goals
    have hfirst := congrArg Lock.start h
    dsimp only at hfirst
    omega

/-- The code locks the bytes counted from the sum it has, or refuses them. -/
lemma flockToPosixLock_spec (files : O) (hw : w ≤ 63) (hbase : l.lWhence.base file = some base)
    (htype : l.lType = some type) {start : Int}
    (hstart : signed (w + 1) (base + l.lStart) = start) :
    (Refused l start → ∃ e, flockToPosixLock files file l = .error e) ∧
    (¬Refused l start → flockToPosixLock files file l = .ok (lockFrom files l type start)) := by
  obtain ⟨hlo, hhi⟩ := signed_mem w (base + l.lStart)
  obtain ⟨hlen, hlen'⟩ := l.len_mem
  have hmax : offsetMax = 2 ^ 63 - 1 := rfl
  have hle : (2 : Int) ^ w ≤ 2 ^ 63 := by exact_mod_cast Nat.pow_le_pow_right (by decide) hw
  have hsum : signed (w + 1) (signed (w + 1) base + l.lStart) = start := by
    rw [← hstart]
    exact Int.bmod_add_bmod
  rw [hstart] at hlo hhi
  unfold flockToPosixLock lockFrom Refused
  simp only [hbase, htype, hsum]
  by_cases hfirst : start < 0
  · rw [if_pos hfirst]
    exact ⟨fun _ => ⟨_, rfl⟩, fun hno => absurd (.inl hfirst) hno⟩
  rw [if_neg hfirst]
  rcases lt_trichotomy l.lLen 0 with hneg | hzero | hpos
  · simp only [hneg, show ¬l.lLen > 0 by omega, if_true, if_false, true_and]
    rw [signed_eq (x := start + l.lLen) (by omega) (by omega),
      signed_eq (x := start - 1) (by omega) (by omega)]
    by_cases hlow : start + l.lLen < 0
    · rw [if_pos hlow]
      exact ⟨fun _ => ⟨_, rfl⟩, fun hno => absurd (.inr (.inr hlow)) hno⟩
    · rw [if_neg hlow, if_neg (by omega)]
      exact ⟨fun href => by omega, fun _ => rfl⟩
  · simp only [hzero, lt_irrefl, if_false, false_and, or_false]
    rw [if_neg (by omega)]
    exact ⟨fun href => by omega, fun _ => rfl⟩
  · simp only [hpos, show ¬l.lLen < 0 by omega, if_true, if_false, false_and, or_false]
    rcases lt_or_ge (start + l.lLen - 1) (2 ^ w) with hend | hend
    · rw [signed_eq (x := start + l.lLen - 1) (by omega) hend, if_neg (by omega)]
      exact ⟨fun href => by omega, fun _ => rfl⟩
    · rw [signed_of_ge hend (by omega), if_pos (by omega)]
      exact ⟨fun _ => ⟨_, rfl⟩, fun hno => by omega⟩

/-- Ranges are exact if and only if the sums fit: a `struct flock` gives the lock of
the bytes that it stands for if these are bytes of a file, and is refused if not. -/
theorem flock_range_exact_iff (hw : w ≤ 63) (hbase : l.lWhence.base file = some base)
    (htype : l.lType = some type) :
    (Valid (exactLock files l type base) ∧
        flockToPosixLock files file l = .ok (exactLock files l type base) ∨
      ¬Valid (exactLock files l type base) ∧ ∃ e, flockToPosixLock files file l = .error e) ↔
    SumsFit files l type base := by
  have hnonneg := Whence.base_nonneg hbase
  obtain ⟨hlo, hlo'⟩ := l.start_mem
  obtain ⟨hlen, hlen'⟩ := l.len_mem
  have hle : (2 : Int) ^ w ≤ 2 ^ 63 := by exact_mod_cast Nat.pow_le_pow_right (by decide) hw
  obtain ⟨hrefused, htaken⟩ := flockToPosixLock_spec files hw hbase htype rfl
  have hvalid := valid_lockFrom_iff files l type (base + l.lStart)
  unfold SumsFit exactLock
  dsimp only
  by_cases hx : base + l.lStart < 2 ^ w
  · rw [signed_eq (x := base + l.lStart) (by omega) hx] at hrefused htaken
    have hfits : (base + l.lStart < 2 ^ w ∧ (0 ≤ base + l.lStart →
        base + l.lStart + l.lLen ≤ 2 ^ w ∨ 2 ^ 63 < base + l.lStart + l.lLen) ∨
        2 ^ w ≤ base + l.lStart ∧ ¬Valid (lockFrom files l type (base + l.lStart)) ∧
          Refused l (signed (w + 1) (base + l.lStart))) ↔
      (0 ≤ base + l.lStart →
        base + l.lStart + l.lLen ≤ 2 ^ w ∨ 2 ^ 63 < base + l.lStart + l.lLen) :=
      ⟨fun h => h.elim And.right fun h => absurd hx (not_lt.mpr h.1), fun h => .inl ⟨hx, h⟩⟩
    rw [hfits]
    by_cases href : Refused l (base + l.lStart)
    · obtain ⟨e, he⟩ := hrefused href
      unfold Refused at href
      constructor
      · rintro (⟨-, hok⟩ | ⟨hno, -⟩)
        · cases he.symm.trans hok
        · rw [hvalid] at hno
          split_ifs at hno <;> omega
      · intro hcond
        refine .inr ⟨fun h => ?_, e, he⟩
        rw [hvalid] at h
        split_ifs at h <;> omega
    · have hok := htaken href
      unfold Refused at href
      refine iff_of_true (.inl ⟨hvalid.mpr ?_, hok⟩) fun _ => .inl (by omega)
      split_ifs <;> omega
  · -- another start than the one that is meant
    have hother : signed (w + 1) (base + l.lStart) ≠ base + l.lStart := by
      have hlt := (signed_mem w (base + l.lStart)).2
      omega
    by_cases href : Refused l (signed (w + 1) (base + l.lStart))
    · obtain ⟨e, he⟩ := hrefused href
      constructor
      · rintro (⟨-, hok⟩ | ⟨hno, -⟩)
        · cases he.symm.trans hok
        · exact .inr ⟨not_lt.mp hx, hno, href⟩
      · rintro (⟨hlt, -⟩ | ⟨-, hno, -⟩)
        · exact absurd hlt hx
        · exact .inr ⟨hno, e, he⟩
    · have hok := htaken href
      refine iff_of_false ?_ ?_
      · rintro (⟨-, hexact⟩ | ⟨-, e, he⟩)
        · exact hother (lockFrom_inj (Except.ok.inj (hok.symm.trans hexact)))
        · cases he.symm.trans hok
      · rintro (⟨hlt, -⟩ | ⟨-, -, hr⟩)
        · exact hx hlt
        · exact href hr

/-- Ten bytes before the end of a file of 100. -/
def lastTen : Flock 31 := ⟨some .rdlck, .seekEnd, 0, -10, by decide, by decide⟩

theorem lastTen_exact :
    flockToPosixLock () ⟨0, 100, by decide, by decide⟩ lastTen = .ok ⟨(), .rdlck, 90, 99⟩ :=
  (((flock_range_exact_iff (by decide) (rfl : lastTen.lWhence.base _ = some 100)
    (rfl : lastTen.lType = some .rdlck)).mpr (.inl ⟨by decide, by decide⟩)).resolve_right
      fun h => h.1 ⟨by decide, by decide, by decide⟩).2

/-- With 64 bits the byte at `OFFSET_MAX`, counted back, is refused. With 32 bits
a position is cut off, and another byte is locked. -/
theorem other_range_taken :
    (∃ l : Flock 63, exactLock () l .rdlck offsetMax = ⟨(), .rdlck, offsetMax, offsetMax⟩ ∧
      flock64ToPosixLock () ⟨offsetMax, 0, by decide, by decide⟩ l = .error (-einval)) ∧
    ∃ l : Flock 31, exactLock () l .rdlck (2 ^ 32) = ⟨(), .rdlck, 2 ^ 32, 2 ^ 32⟩ ∧
      flockToPosixLock () ⟨2 ^ 32, 0, by decide, by decide⟩ l = .ok ⟨(), .rdlck, 0, 0⟩ :=
  ⟨⟨⟨some .rdlck, .seekCur, 1, -1, by decide, by decide⟩, rfl, rfl⟩,
    ⟨some .rdlck, .seekCur, 0, 1, by decide, by decide⟩, rfl, rfl⟩

end BoardStack.Locks
