/-
A bounded output buffer: a cursor that always moves, over memory that is
written only below a limit.

`put` is the step every bounded writer repeats, store if the cursor is below
the limit and advance in any case. The cursor is an address of `w` bits, so
it can wrap. While it does not, what a text leaves in memory is the part of
it that lies below the limit, and how far the cursor moved does not depend on
the limit. The log, which no writer reads, keeps all that was put out.
-/
import Mathlib.Tactic.Ring

namespace BoardStack.Base

open Function List

universe u

/-- Memory, the cursor, the first address that may not be written, and what
was put out so far, stored or not. -/
structure Sink (α : Type u) where
  mem : Nat → α
  pos : Nat
  limit : Nat
  log : List α

namespace Sink

variable {α : Type u}
variable {t : List α} {w : Nat} {o : Sink α}

/-- Store below the limit, and advance. -/
def put (w : Nat) (o : Sink α) (c : α) : Sink α where
  mem := if o.pos < o.limit then update o.mem o.pos c else o.mem
  pos := (o.pos + 1) % 2 ^ w
  limit := o.limit
  log := o.log ++ [c]

/-- The characters of a text, one after the other. -/
def emit (w : Nat) (o : Sink α) (text : List α) : Sink α := text.foldl (put w) o

section

variable (w o)

@[simp] lemma emit_nil : o.emit w [] = o := rfl

@[simp] lemma emit_cons (c : α) (text : List α) :
    o.emit w (c :: text) = (o.put w c).emit w text := rfl

lemma emit_append (t1 t2 : List α) : o.emit w (t1 ++ t2) = (o.emit w t1).emit w t2 := foldl_append

@[simp] lemma put_limit (c : α) : (o.put w c).limit = o.limit := rfl

@[simp] lemma emit_limit (text : List α) : (o.emit w text).limit = o.limit := by
  induction text generalizing o with
  | nil => rfl
  | cons c text ih => rw [emit_cons, ih, put_limit]

@[simp] lemma emit_log (text : List α) : (o.emit w text).log = o.log ++ text := by
  induction text generalizing o with
  | nil => exact (append_nil _).symm
  | cons c text ih =>
    rw [emit_cons, ih]
    exact (append_cons _ _ _).symm

end

lemma put_pos (c : α) (h : o.pos + 1 < 2 ^ w) : (o.put w c).pos = o.pos + 1 := Nat.mod_eq_of_lt h

lemma emit_pos (h : o.pos + t.length < 2 ^ w) : (o.emit w t).pos = o.pos + t.length := by
  induction t generalizing o with
  | nil => rfl
  | cons c t ih =>
    rw [length_cons] at h ⊢
    have hput := put_pos (w := w) (o := o) c (by omega)
    rw [emit_cons, ih (by omega), hput]
    omega

/-- Memory outside the text's place, and at and above the limit, stays. -/
lemma emit_mem_of_outside {a : Nat} (h : o.pos + t.length < 2 ^ w)
    (ha : a < o.pos ∨ o.pos + t.length ≤ a ∨ o.limit ≤ a) :
    (o.emit w t).mem a = o.mem a := by
  induction t generalizing o with
  | nil => rfl
  | cons c t ih =>
    rw [length_cons] at h ha
    have hput := put_pos (w := w) (o := o) c (by omega)
    rw [emit_cons, ih (by omega) (by rw [put_limit]; omega)]
    unfold put
    dsimp only
    split
    · rw [update_of_ne (by omega)]
    · rfl

lemma emit_mem {i : Nat} {c : α} (h : o.pos + t.length < 2 ^ w) (hi : t[i]? = some c)
    (hlim : o.pos + i < o.limit) :
    (o.emit w t).mem (o.pos + i) = c := by
  induction t generalizing o i with
  | nil => cases hi
  | cons d t ih =>
    rw [length_cons] at h
    have hput := put_pos (w := w) (o := o) d (by omega)
    rw [emit_cons]
    cases i with
    | zero =>
      obtain rfl : d = c := by simpa using hi
      rw [add_zero] at hlim ⊢
      rw [emit_mem_of_outside (by omega) (by omega)]
      unfold put
      dsimp only
      rw [if_pos hlim, update_self]
    | succ i =>
      have hi' : t[i]? = some c := by simpa using hi
      have := ih (o := o.put w d) (by omega) hi' (by rw [put_limit]; omega)
      rwa [hput, show o.pos + 1 + i = o.pos + (i + 1) by omega] at this

end Sink

end BoardStack.Base
