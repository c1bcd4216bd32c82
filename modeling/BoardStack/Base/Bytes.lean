/-
Byte-addressed memory.

`write` puts a list of bytes at an address; it changes these bytes only, and writes
one behind the other are one write. `Reads` says that a list of bytes stands there.
-/
import Mathlib.Tactic.Ring

namespace BoardStack.Base

open Function List Option

/-- A byte at every address. -/
abbrev Mem := Nat → UInt8

-- == arrays at large

section

universe u

variable {α : Type u} {m : Nat → α} {a b : Nat}

/-- Put a list of bytes, or of other elements of an array, at `a`. -/
def write (m : Nat → α) (a : Nat) (bs : List α) : Nat → α :=
  fun i => if a ≤ i then (bs[i - a]?).getD (m i) else m i

@[simp] lemma write_nil (m : Nat → α) (a : Nat) : write m a [] = m := by
  funext i
  unfold write
  rw [List.getElem?_nil, getD_none, ite_self]

lemma write_of_outside {bs : List α} (h : b < a ∨ a + bs.length ≤ b) : write m a bs b = m b := by
  unfold write
  split_ifs with hle
  · rw [List.getElem?_eq_none (by omega), getD_none]
  · rfl

lemma write_getElem? {bs : List α} {i : Nat} {x : α}
    (h : bs[i]? = some x) : write m a bs (a + i) = x := by
  unfold write
  rw [if_pos (Nat.le_add_right a i), Nat.add_sub_cancel_left, h, getD_some]

lemma write_append (m : Nat → α) (a : Nat) (xs ys : List α) :
    write (write m a xs) (a + xs.length) ys = write m a (xs ++ ys) := by
  funext i
  unfold write
  by_cases hys : a + xs.length ≤ i
  · rw [if_pos hys, if_pos (by omega), if_pos (by omega), List.getElem?_append_right (by omega),
      List.getElem?_eq_none (by omega : xs.length ≤ i - a),
      getD_none, show i - (a + xs.length) = i - a - xs.length by omega]
  · rw [if_neg hys]
    split_ifs with ha
    · rw [List.getElem?_append_left (by omega)]
    · rfl

lemma update_write_end (m : Nat → α) (a : Nat) (xs : List α) (x : α) :
    update (write m a xs) (a + xs.length) x = write m a (xs ++ [x]) := by
  rw [← write_append]
  funext i
  by_cases hi : i = a + xs.length
  · rw [hi, update_self]
    exact (write_getElem? (i := 0) rfl).symm
  · have hout : i < a + xs.length ∨ a + xs.length + [x].length ≤ i := by
      rw [length_singleton]
      omega
    rw [update_of_ne hi, write_of_outside hout]

lemma update_eq_write (m : Nat → α) (a : Nat) (x : α) : update m a x = write m a [x] := by
  have hend := update_write_end m a [] x
  rwa [write_nil] at hend

lemma update_write_front (m : Nat → α) (a : Nat) (xs : List α) (x : α) :
    update (write m (a + 1) xs) a x = write m a (x :: xs) := by
  funext i
  by_cases hi : i = a
  · rw [hi, update_self]
    exact (write_getElem? (i := 0) rfl).symm
  rw [update_of_ne hi]
  unfold write
  by_cases ha : a + 1 ≤ i
  · rw [if_pos ha, if_pos (by omega),
      show i - a = i - (a + 1) + 1 by omega, List.getElem?_cons_succ]
  · rw [if_neg ha, if_neg (by omega)]

/-- The array has a list of elements at `a`. -/
def Reads (m : Nat → α) : Nat → List α → Prop
  | _, [] => True
  | a, x :: xs => m a = x ∧ Reads m (a + 1) xs

lemma reads_append {xs ys : List α} :
    Reads m a (xs ++ ys) ↔ Reads m a xs ∧ Reads m (a + xs.length) ys := by
  induction xs generalizing a with
  | nil => simp [Reads]
  | cons x xs ih =>
    rw [cons_append, Reads, Reads, ih, length_cons, and_assoc, add_assoc, add_comm 1]

lemma reads_of_getElem? {xs : List α}
    (h : ∀ i x, xs[i]? = some x → m (a + i) = x) : Reads m a xs := by
  induction xs generalizing a with
  | nil => trivial
  | cons x xs ih =>
    refine ⟨h 0 x rfl, ih fun i y hy => ?_⟩
    rw [add_assoc, add_comm 1]
    exact h (i + 1) y hy

lemma reads_write (m : Nat → α) (a : Nat) (xs : List α) : Reads (write m a xs) a xs :=
  reads_of_getElem? fun _ _ hx => write_getElem? hx

lemma map_range_write (m : Nat → α) (xs : List α) :
    (List.range xs.length).map (write m 0 xs) = xs := by
  apply ext_getElem
  · rw [length_map, length_range]
  · intro i hi hx
    have hat := write_getElem? (m := m) (a := 0) (List.getElem?_eq_getElem hx)
    rw [zero_add] at hat
    rw [getElem_map, getElem_range, hat]

end

end BoardStack.Base
