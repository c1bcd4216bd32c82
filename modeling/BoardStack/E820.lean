/-
Memory maps from the BIOS: taking a range out of a map (arch/x86/kernel/e820.c).

An entry is shortened at its front or at its end. One with the range in its middle would
have to become two, and is shortened at its end as well. The end of an entry that reaches
up to `2 ^ 64` is 0: it is removed as a whole if it begins behind the start of the range,
and kept as a whole if it does not.
-/
import Mathlib.Algebra.BigOperators.Intervals

namespace BoardStack.E820

open Finset Nat

structure E820Entry where
  addr : Nat
  size : Nat
  type : Nat

/-- The address is in the entry, which has the type. -/
abbrev E820Entry.Has (ei : E820Entry) (type x : Nat) : Prop :=
  ei.type = type ∧ ei.addr ≤ x ∧ x < ei.addr + ei.size

/-- The addresses of a type. -/
abbrev Covers (map : List E820Entry) (type x : Nat) : Prop := ∃ ei ∈ map, ei.Has type x

/-- The size that does not lead beyond `ULLONG_MAX`. -/
def clamp (start size : Nat) : Nat :=
  if size > 2 ^ 64 - 1 - start then 2 ^ 64 - 1 - start else size

/-- The body of the loop: what is added to `real_removed_size`, and the entry. -/
def removeBody (start size oldType : Nat) (checktype : Bool) (ei : E820Entry) : Nat × E820Entry :=
  let rangeEnd := (start + size) % 2 ^ 64
  let entryEnd := (ei.addr + ei.size) % 2 ^ 64
  if checktype ∧ ei.type ≠ oldType then (0, ei)
  else if ei.addr ≥ start ∧ entryEnd ≤ rangeEnd then (ei.size, ⟨0, 0, 0⟩)
  else
    let finalStart := max start ei.addr
    let finalEnd := min rangeEnd entryEnd
    if finalStart ≥ finalEnd then (0, ei)
    else
      (finalEnd - finalStart, { ei with
        size := (2 ^ 64 + ei.size - (finalEnd - finalStart)) % 2 ^ 64
        addr := if ei.addr < finalStart then ei.addr else finalEnd })

def e820RemoveRange (map : List E820Entry) (start size oldType : Nat) (checktype : Bool) :
    Nat × List E820Entry :=
  let removed := map.map (removeBody start (clamp start size) oldType checktype)
  ((removed.map Prod.fst).sum % 2 ^ 64, removed.map Prod.snd)

/-- The entry has 64-bit fields, and ends at `2 ^ 64` at the latest. -/
def NoWrap (ei : E820Entry) : Prop :=
  ei.addr < 2 ^ 64 ∧ ei.size < 2 ^ 64 ∧ ei.addr + ei.size ≤ 2 ^ 64

/-- An entry of the type does not have the range in its middle and, if it ends at
`2 ^ 64`, is removed as a whole or not at all. -/
def Fits (start size oldType : Nat) (ei : E820Entry) : Prop :=
  ei.type = oldType →
    (ei.addr + ei.size < 2 ^ 64 →
      ¬(0 < size ∧ ei.addr < start ∧ start + size < ei.addr + ei.size)) ∧
    (ei.addr + ei.size = 2 ^ 64 →
      start ≤ ei.addr ∧ 2 ^ 64 ≤ start + size ∨ ei.addr < start ∧ size = 0)

variable {start size oldType : Nat} {ei : E820Entry} {map : List E820Entry}

lemma clamp_spec (size : Nat) (hstart : start < 2 ^ 64) :
    ∃ n, clamp start size = n ∧ start + n < 2 ^ 64 ∧
      (n = size ∨ n < size ∧ start + n = 2 ^ 64 - 1) := by
  unfold clamp
  refine ⟨_, rfl, ?_⟩
  split_ifs <;> omega

/-- What is removed of an entry. -/
lemma removeBody_spec (hstart : start < 2 ^ 64) (hei : NoWrap ei)
    (hfits : Fits start size oldType ei) :
    (∀ type x, (removeBody start (clamp start size) oldType true ei).2.Has type x ↔
      ei.Has type x ∧ ¬(type = oldType ∧ start ≤ x ∧ x < start + size)) ∧
    (removeBody start (clamp start size) oldType true ei).1
      = #{x ∈ Ico start (start + size) | ei.Has oldType x} := by
  obtain ⟨haddr, hsize, hend⟩ := hei
  obtain ⟨n, hn, hrange, hcut⟩ := clamp_spec size hstart
  unfold removeBody
  dsimp only
  rw [hn, mod_eq_of_lt hrange]
  by_cases htype : ei.type = oldType
  · obtain ⟨hmiddle, htop⟩ := hfits htype
    have hpart : {x ∈ Ico start (start + size) | ei.Has oldType x}
        = Ico (max start ei.addr) (min (start + size) (ei.addr + ei.size)) := by
      ext x
      rw [mem_filter, mem_Ico, mem_Ico]
      omega
    rw [hpart, card_Ico, if_neg fun h => h.2 htype]
    rcases lt_or_eq_of_le hend with hlt | heq
    · specialize hmiddle hlt
      clear htop
      have hmin : min (start + size) (ei.addr + ei.size) = min (start + n) (ei.addr + ei.size) := by
        omega
      rw [mod_eq_of_lt hlt, hmin]
      generalize hs : max start ei.addr = finalStart
      generalize he : min (start + n) (ei.addr + ei.size) = finalEnd
      constructor
      · intro type x
        split_ifs <;> dsimp only [E820Entry.Has] <;> omega
      · split_ifs <;> dsimp only <;> omega
    · specialize htop heq
      rw [heq, mod_self]
      rcases htop with ⟨hbelow, hall⟩ | ⟨habove, hnone⟩
      · rw [if_pos ⟨hbelow, zero_le _⟩]
        exact ⟨fun type x => by dsimp only [E820Entry.Has]; omega, by dsimp only; omega⟩
      · rw [if_neg (by omega), if_pos (by omega)]
        exact ⟨fun type x => by dsimp only [E820Entry.Has]; omega, by dsimp only; omega⟩
  · rw [if_pos ⟨rfl, htype⟩, filter_false_of_mem fun x _ hx => htype hx.1]
    exact ⟨fun type x => by dsimp only; omega, rfl⟩

/-- An entry never grows. -/
lemma has_of_removeBody (hei : NoWrap ei) {type x : Nat}
    (h : (removeBody start size oldType true ei).2.Has type x) : ei.Has type x := by
  obtain ⟨haddr, hsize, hend⟩ := hei
  unfold removeBody at h
  dsimp only at h
  generalize (start + size) % 2 ^ 64 = rangeEnd at h
  rcases lt_or_eq_of_le hend with hlt | heq
  · rw [mod_eq_of_lt hlt] at h
    generalize hs : max start ei.addr = finalStart at h
    generalize he : min rangeEnd (ei.addr + ei.size) = finalEnd at h
    split_ifs at h <;> dsimp only [E820Entry.Has] at h ⊢ <;> omega
  · rw [heq, mod_self] at h
    split_ifs at h <;> dsimp only [E820Entry.Has] at h ⊢ <;> omega

/-- An entry that does not fit has an address that is wrongly kept or wrongly lost. -/
lemma exists_wrong (hstart : start < 2 ^ 64) (hei : NoWrap ei)
    (hnot : ¬Fits start size oldType ei) :
    ∃ x, ei.Has oldType x ∧
      ((removeBody start (clamp start size) oldType true ei).2.Has oldType x ↔
        start ≤ x ∧ x < start + size) := by
  obtain ⟨haddr, hsize, hend⟩ := hei
  obtain ⟨n, hn, hrange, hcut⟩ := clamp_spec size hstart
  obtain ⟨htype, hnot⟩ := Classical.not_imp.mp hnot
  unfold removeBody
  dsimp only
  rw [hn, mod_eq_of_lt hrange, if_neg fun h => h.2 htype]
  rcases lt_or_eq_of_le hend with hlt | heq
  · -- the start of the range is kept in front of the new end
    rw [mod_eq_of_lt hlt]
    refine ⟨start, ⟨htype, by omega, by omega⟩, ?_⟩
    rw [if_neg (by omega), max_eq_left (by omega), min_eq_left (by omega), if_neg (by omega)]
    dsimp only [E820Entry.Has]
    rw [if_pos (by omega)]
    omega
  · rw [heq, mod_self]
    by_cases hbelow : start ≤ ei.addr
    · -- the last address is lost
      refine ⟨2 ^ 64 - 1, ⟨htype, by omega, by omega⟩, ?_⟩
      rw [if_pos ⟨hbelow, zero_le _⟩]
      dsimp only [E820Entry.Has]
      omega
    · refine ⟨start, ⟨htype, by omega, by omega⟩, ?_⟩
      rw [if_neg (by omega), if_pos (by omega)]
      dsimp only [E820Entry.Has]
      omega

lemma covers_cons {type x : Nat} :
    Covers (ei :: map) type x ↔ ei.Has type x ∨ Covers map type x := by
  simp [Covers]

/-- The entries that fit lose the range, and nothing else. -/
lemma removed_of_fits (hstart : start < 2 ^ 64) (hei : ∀ ei ∈ map, NoWrap ei)
    (hdisjoint : map.Pairwise fun a b => ∀ x, ¬(a.Has a.type x ∧ b.Has b.type x))
    (hfits : ∀ ei ∈ map, Fits start size oldType ei) :
    (∀ type x, Covers (e820RemoveRange map start size oldType true).2 type x ↔
      Covers map type x ∧ ¬(type = oldType ∧ start ≤ x ∧ x < start + size)) ∧
    (e820RemoveRange map start size oldType true).1
      = #{x ∈ Ico start (start + size) | Covers map oldType x} % 2 ^ 64 := by
  unfold e820RemoveRange
  induction map with
  | nil => simp [Covers]
  | cons ei map ih =>
    obtain ⟨hapart, hmap⟩ := List.pairwise_cons.mp hdisjoint
    obtain ⟨hone, hfits⟩ := List.forall_mem_cons.mp hfits
    obtain ⟨hwrap, hei⟩ := List.forall_mem_cons.mp hei
    obtain ⟨hkept, hcount⟩ := removeBody_spec hstart hwrap hone
    obtain ⟨ihkept, ihcount⟩ := ih hei hmap hfits
    dsimp only at ihkept ihcount ⊢
    constructor
    · intro type x
      rw [List.map_cons, List.map_cons, covers_cons, covers_cons, hkept, ihkept, or_and_right]
    · -- the entries have no address in common, so what is removed of them adds up
      simp only [covers_cons, filter_or, List.map_cons, List.sum_cons]
      rw [card_union_of_disjoint, hcount, add_mod, ihcount, ← add_mod]
      rw [disjoint_filter]
      rintro x - hx ⟨b, hb, hx'⟩
      exact hapart b hb x ⟨⟨rfl, hx.2⟩, rfl, hx'.2⟩

/-- The range is removed, and nothing else, if and only if every entry fits. -/
theorem e820RemoveRange_exact_iff (map : List E820Entry) (start size oldType : Nat)
    (hstart : start < 2 ^ 64) (hsize : size < 2 ^ 64) (hei : ∀ ei ∈ map, NoWrap ei)
    (hdisjoint : map.Pairwise fun a b => ∀ x, ¬(a.Has a.type x ∧ b.Has b.type x)) :
    ((∀ type x, Covers (e820RemoveRange map start size oldType true).2 type x ↔
        Covers map type x ∧ ¬(type = oldType ∧ start ≤ x ∧ x < start + size)) ∧
      (e820RemoveRange map start size oldType true).1
        = #{x ∈ Ico start (start + size) | Covers map oldType x}) ↔
    ∀ ei ∈ map, Fits start size oldType ei := by
  constructor
  · rintro ⟨hexact, -⟩ ei hmem
    by_contra hnot
    obtain ⟨x, hx, hwrong⟩ := exists_wrong hstart (hei ei hmem) hnot
    have hold : Covers map oldType x := ⟨ei, hmem, hx⟩
    have himage : Covers (e820RemoveRange map start size oldType true).2 oldType x ↔
        ∃ a ∈ map, (removeBody start (clamp start size) oldType true a).2.Has oldType x := by
      simp [e820RemoveRange, Covers]
    have hiff := himage.symm.trans (hexact oldType x)
    by_cases hin : start ≤ x ∧ x < start + size
    · exact (hiff.mp ⟨ei, hmem, hwrong.mpr hin⟩).2 ⟨rfl, hin⟩
    · -- no other entry can have the address that was lost
      obtain ⟨a, ha, hax⟩ := hiff.mpr ⟨hold, fun h => hin h.2⟩
      by_cases heq : a = ei
      · subst heq
        exact hin (hwrong.mp hax)
      · have : Std.Symm fun a b : E820Entry => ∀ y, ¬(a.Has a.type y ∧ b.Has b.type y) :=
          ⟨fun _ _ h y hy => h y hy.symm⟩
        have hapart := hdisjoint.forall ha hmem heq
        have hx' := has_of_removeBody (hei a ha) hax
        exact hapart x ⟨⟨rfl, hx'.2⟩, rfl, hx.2⟩
  · intro hfits
    obtain ⟨hkept, hcount⟩ := removed_of_fits hstart hei hdisjoint hfits
    have hle := card_filter_le (Ico start (start + size)) fun x => Covers map oldType x
    rw [card_Ico] at hle
    rw [mod_eq_of_lt (by omega)] at hcount
    exact ⟨hkept, hcount⟩

def twoEntries : List E820Entry := [⟨0, 0x10000, 1⟩, ⟨0x10000, 0x1000, 2⟩]

theorem twoEntries_exact : (∀ type x, Covers (e820RemoveRange twoEntries 0 0x1000 1 true).2 type x ↔
      Covers twoEntries type x ∧ ¬(type = 1 ∧ 0 ≤ x ∧ x < 0 + 0x1000)) ∧
    (e820RemoveRange twoEntries 0 0x1000 1 true).1
      = #{x ∈ Ico 0 (0 + 0x1000) | Covers twoEntries 1 x} :=
  (e820RemoveRange_exact_iff twoEntries 0 0x1000 1 (by decide) (by decide)
    (by simp [twoEntries, NoWrap]) (by simp [twoEntries]; omega)).mpr
    (by simp [twoEntries, Fits])

/-- The range stays, and the end of the entry goes. -/
theorem middle_kept : Covers (e820RemoveRange twoEntries 0x4000 0x1000 1 true).2 1 0x4000 ∧
    ¬Covers (e820RemoveRange twoEntries 0x4000 0x1000 1 true).2 1 0xf000 := by
  decide

end BoardStack.E820
