/-
Timers fire exactly once, and on their tick: every timer is where the base will
come across it in time.

`now` is the tick that comes next, a number that does not wrap; the base's
`timer_jiffies` is its remainder. A timer in `tv1` is due within a turn of
the array, at its slot's tick. A timer in another array has a tick at which
its slot is cascaded, not before `now` and not after the timer is due. Adding
a timer, which cascading does again, always finds such a slot whose tick is
after `now`, so nothing is added behind the base.

`due` reads off what happened so far at which tick each pending timer is due;
`Orderly` says that a timer only ever fires while its own tick is processed,
and that no tick begins while a timer of an earlier one is left. The wheel
keeps both (`step_ok`), and with them a timer's life follows from the trace
alone.
-/
import BoardStack.Timer.Basic

namespace BoardStack.Timer

open Base Function List

universe u

section

variable {T : Type u} {g : Geometry}
variable {d i k n now : Nat} {t : T}

-- == the geometry

lemma Geometry.cases (g : Geometry) :
    (g.tvrBits = 6 ∧ g.tvnBits = 4) ∨ (g.tvrBits = 8 ∧ g.tvnBits = 6) := by
  unfold Geometry.tvrBits Geometry.tvnBits
  cases g.small with
  | false => exact .inr ⟨rfl, rfl⟩
  | true => exact .inl ⟨rfl, rfl⟩

lemma Geometry.word_cases (g : Geometry) : g.word.bits = 32 ∨ g.word.bits = 64 := by
  cases g.word with
  | w32 => exact .inl rfl
  | w64 => exact .inr rfl

lemma Geometry.shift_array (g : Geometry) (n : Nat) :
    g.shift (n + 1) = g.tvrBits + n * g.tvnBits := rfl

lemma Geometry.shift_le (g : Geometry) (hn : n < 4) : g.shift (n + 1) + g.tvnBits ≤ 32 := by
  have hmul : n * g.tvnBits ≤ 3 * g.tvnBits := Nat.mul_le_mul_right _ (by omega)
  rw [g.shift_array]
  rcases g.cases with ⟨hr, hb⟩ | ⟨hr, hb⟩ <;> omega

lemma Geometry.le_word (g : Geometry) : 32 ≤ g.word.bits := by
  rcases g.word_cases with h | h <;> omega

lemma slot_mod {w s b x : Nat} (h : s + b ≤ w) :
    (x % 2 ^ w) >>> s &&& (2 ^ b - 1) = x / 2 ^ s % 2 ^ b := by
  rw [Nat.and_two_pow_sub_one_eq_mod, Nat.shiftRight_eq_div_pow]
  obtain ⟨c, rfl⟩ := Nat.exists_eq_add_of_le h
  rw [pow_add, pow_add, mul_assoc, Nat.mod_mul_right_div_self, Nat.mod_mul_right_mod]

-- == placement

/-- Array `k`'s slot `i` is cascaded at a tick from `lo` to `hi`. -/
def Visits (g : Geometry) (k i lo hi : Nat) : Prop :=
  ∃ v, lo ≤ v ∧ v ≤ hi ∧ 2 ^ g.shift k ∣ v ∧ v / 2 ^ g.shift k % g.tvnSize = i

/-- A slot for a timer that is due at `d`, with nothing left to do at the tick
`now` if it is not due then. -/
def Placed (g : Geometry) (now d k i : Nat) : Prop :=
  match k with
  | 0 => now ≤ d ∧ d < now + g.tvrSize ∧ d % g.tvrSize = i
  | k + 1 => k < 4 ∧ Visits g (k + 1) i (now + 1) d

/-- A slot that stands for the bits of a time is visited at the beginning of
that time's stretch. -/
lemma visits_of_le {e : Nat} (hlow : now + 2 ^ g.shift k ≤ e) (hle : e ≤ d) :
    Visits g k (e / 2 ^ g.shift k % g.tvnSize) (now + 1) d := by
  have hpos : 0 < 2 ^ g.shift k := Nat.two_pow_pos _
  have hdiv := Nat.div_add_mod e (2 ^ g.shift k)
  refine ⟨2 ^ g.shift k * (e / 2 ^ g.shift k), by omega, by omega, dvd_mul_right _ _, ?_⟩
  rw [Nat.mul_div_cancel_left _ hpos]

/-- The slot in array `n + 1` that stands for the time `e`, which may be an
earlier one than the timer is due at. -/
lemma placed_of_le {s e : Nat} (hn : n < 4) (hs : g.tvrBits + n * g.tvnBits = s)
    (hlow : now + 2 ^ s ≤ e) (hle : e ≤ d) :
    Placed g now d (n + 1) ((e % 2 ^ g.word.bits) >>> s &&& (g.tvnSize - 1)) := by
  subst hs
  rw [← g.shift_array] at hlow ⊢
  have hword := (g.shift_le hn).trans g.le_word
  unfold Geometry.tvnSize
  rw [slot_mod hword]
  exact ⟨hn, visits_of_le hlow hle⟩

lemma Geometry.half_word (g : Geometry) :
    2 ^ g.word.bits = 2 * 2 ^ (g.word.bits - 1) ∧ 2 ^ 31 ≤ 2 ^ (g.word.bits - 1) := by
  have hle := g.le_word
  constructor
  · rw [← Nat.pow_succ', Nat.succ_eq_add_one, Nat.sub_add_cancel (by omega)]
  · exact Nat.pow_le_pow_right (by decide) (by omega)

lemma signed_nonneg {x : Nat} (h : x < 2 ^ (g.word.bits - 1)) :
    signed g.word.bits (x : Int) = x := by
  have hword : g.word.bits = g.word.bits - 1 + 1 := by
    have := g.le_word
    omega
  rw [hword]
  apply signed_eq
  · have : (0 : Int) < 2 ^ (g.word.bits - 1) := Int.pow_pos (by decide)
    omega
  · exact_mod_cast h

/-- Adding a timer that is not past finds it a slot. -/
theorem slotOf_placed (hle : now ≤ d) (hlt : d < now + 2 ^ (g.word.bits - 1)) :
    Placed g now d (slotOf g (now % 2 ^ g.word.bits) (d % 2 ^ g.word.bits)).1
      (slotOf g (now % 2 ^ g.word.bits) (d % 2 ^ g.word.bits)).2 := by
  have hidx := unsigned_sub (w := g.word.bits) hle (by have := g.half_word; omega)
  have hsigned := signed_nonneg (g := g) (x := d - now) (by omega)
  unfold slotOf
  dsimp only
  rw [hidx]
  split
  next h =>
    refine ⟨hle, by omega, ?_⟩
    unfold Geometry.tvrSize
    have hbits : g.tvrBits + 0 ≤ g.word.bits := by
      have := g.le_word
      rcases g.cases with ⟨hr, -⟩ | ⟨hr, -⟩ <;> omega
    rw [Nat.and_two_pow_sub_one_eq_mod, Nat.mod_mod_of_dvd]
    exact pow_dvd_pow 2 hbits
  next h =>
  split
  next =>
    apply placed_of_le (n := 0) (by decide) (by rw [zero_mul]; rfl) _ le_rfl
    unfold Geometry.tvrSize at h
    omega
  next =>
  split
  next =>
    exact placed_of_le (n := 1) (by decide) (by rw [one_mul]) (by omega) le_rfl
  next =>
  split
  next =>
    exact placed_of_le (n := 2) (by decide) rfl (by omega) le_rfl
  next =>
  split
  next hneg => omega
  next hpos =>
    split
    next hfar =>
      -- a timer beyond 32 bits goes where one at their end would go
      have hclamp : unsigned g.word.bits ((0xffffffff + now % 2 ^ g.word.bits : Nat) : Int)
            = (now + 0xffffffff) % 2 ^ g.word.bits := by
        rw [unsigned_natCast, Nat.add_mod_mod, add_comm]
      rw [hclamp]
      apply placed_of_le (n := 3) (by decide) rfl _ (by omega)
      have hpow : 2 ^ (g.tvrBits + 3 * g.tvnBits) ≤ 2 ^ 31 := by
        apply Nat.pow_le_pow_right (by decide)
        rcases g.cases with ⟨hr, hb⟩ | ⟨hr, hb⟩ <;> omega
      omega
    next hnear =>
      exact placed_of_le (n := 3) (by decide) rfl (by omega) le_rfl

-- == invariant

/-- The timers `P` are on the wheel, each once and where it will be found in
time. Of the arrays after `tv1` the first `c` have nothing left to cascade at
the tick `now`. -/
structure WheelOk (g : Geometry) (now c : Nat) (due expires : T → Nat)
    (P : T → Prop) (base : TvecBase T) : Prop where
  jiffies : base.timerJiffies = now % 2 ^ g.word.bits
  mem : ∀ t, P t ↔ ∃ k i, t ∈ base.tv k i
  unique : ∀ {t k i k' i'}, t ∈ base.tv k i → t ∈ base.tv k' i' → k = k' ∧ i = i'
  nodup : ∀ k i, (base.tv k i).Nodup
  near : ∀ {t i}, t ∈ base.tv 0 i → now ≤ due t ∧ due t < now + g.tvrSize ∧ due t % g.tvrSize = i
  far : ∀ {t n i}, t ∈ base.tv (n + 1) i → n < 4 ∧ expires t = due t % 2 ^ g.word.bits ∧
      due t < now + 2 ^ (g.word.bits - 1) ∧
      Visits g (n + 1) i (if n < c then now + 1 else now) (due t)

lemma Visits.mono {lo lo' hi : Nat} (h : Visits g k i lo hi)
    (hle : lo' ≤ lo) : Visits g k i lo' hi := by
  obtain ⟨v, hlo, hrest⟩ := h
  exact ⟨v, hle.trans hlo, hrest⟩

lemma Visits.later {hi : Nat} (h : Visits g k i now hi)
    (hnow : 2 ^ g.shift k ∣ now → now / 2 ^ g.shift k % g.tvnSize ≠ i) :
    Visits g k i (now + 1) hi := by
  obtain ⟨v, hlo, hhi, hdvd, hslot⟩ := h
  refine ⟨v, ?_, hhi, hdvd, hslot⟩
  rcases Nat.lt_or_eq_of_le hlo with hlt | rfl
  · exact hlt
  · exact absurd hslot (hnow hdvd)

lemma tv_setVec (base : TvecBase T) (k i : Nat) (l : List T) (k' i' : Nat) :
    (base.setVec k i l).tv k' i' = if k' = k ∧ i' = i then l else base.tv k' i' := by
  unfold TvecBase.setVec
  dsimp only
  by_cases hk : k' = k
  · subst hk
    rw [update_self]
    by_cases hi : i' = i
    · subst hi
      rw [update_self, if_pos ⟨rfl, rfl⟩]
    · rw [update_of_ne hi, if_neg fun h => hi h.2]
  · rw [update_of_ne hk, if_neg fun h => hk h.1]

namespace WheelOk

variable {now c : Nat} {due expires : T → Nat} {P : T → Prop} {base : TvecBase T}

section

variable (h : WheelOk g now c due expires P base)

include h

lemma congr {P' : T → Prop} (hP : ∀ t, P' t ↔ P t) : WheelOk g now c due expires P' base :=
  ⟨h.jiffies, fun t => (hP t).trans (h.mem t), h.unique, h.nodup, h.near, h.far⟩

lemma retime (due' expires' : T → Nat)
    (htimes : ∀ t, P t → due' t = due t ∧ expires' t = expires t) :
    WheelOk g now c due' expires' P base where
  jiffies := h.jiffies
  mem := h.mem
  unique := h.unique
  nodup := h.nodup
  near ht := by
    rw [(htimes _ ((h.mem _).mpr ⟨_, _, ht⟩)).1]
    exact h.near ht
  far ht := by
    obtain ⟨hdue, hexp⟩ := htimes _ ((h.mem _).mpr ⟨_, _, ht⟩)
    rw [hdue, hexp]
    exact h.far ht

lemma le_due (ht : P t) : now ≤ due t := by
  obtain ⟨k, i, hmem⟩ := (h.mem t).mp ht
  cases k with
  | zero => exact (h.near hmem).1
  | succ n =>
    obtain ⟨-, -, -, v, hlo, hhi, -⟩ := h.far hmem
    split at hlo <;> omega

lemma append (ht : ¬P t) (hplaced : Placed g now (due t) k i)
    (hfar : k ≠ 0 → expires t = due t % 2 ^ g.word.bits ∧ due t < now + 2 ^ (g.word.bits - 1)) :
    WheelOk g now c due expires (fun x => x = t ∨ P x) (base.setVec k i (base.tv k i ++ [t])) := by
  have hnot : ∀ k' i', t ∉ base.tv k' i' := fun k' i' hmem => ht ((h.mem t).mpr ⟨k', i', hmem⟩)
  have hin : ∀ {x k' i'}, x ∈ (base.setVec k i (base.tv k i ++ [t])).tv k' i'
      ↔ x ∈ base.tv k' i' ∨ (x = t ∧ k' = k ∧ i' = i) := by
    intro x k' i'
    rw [tv_setVec]
    split
    next heq =>
      obtain ⟨rfl, rfl⟩ := heq
      simp
    next hne => simp [hne]
  refine ⟨h.jiffies, ?_, ?_, ?_, ?_, ?_⟩
  · intro x
    simp only [hin]
    constructor
    · intro hx
      rcases hx with rfl | hx
      · exact ⟨k, i, .inr ⟨rfl, rfl, rfl⟩⟩
      · obtain ⟨k', i', hx⟩ := (h.mem x).mp hx
        exact ⟨k', i', .inl hx⟩
    · intro hx
      obtain ⟨k', i', hx | ⟨rfl, -, -⟩⟩ := hx
      · exact .inr ((h.mem x).mpr ⟨k', i', hx⟩)
      · exact .inl rfl
  · intro x k1 i1 k2 i2 h1 h2
    rcases hin.mp h1 with h1 | ⟨rfl, rfl, rfl⟩
    · rcases hin.mp h2 with h2 | ⟨heq, -, -⟩
      · exact h.unique h1 h2
      · exact absurd (heq ▸ h1) (hnot k1 i1)
    · rcases hin.mp h2 with h2 | ⟨-, rfl, rfl⟩
      · exact absurd h2 (hnot k2 i2)
      · exact ⟨rfl, rfl⟩
  · intro k' i'
    rw [tv_setVec]
    split
    next =>
      exact nodup_append.mpr ⟨h.nodup k i, pairwise_singleton _ t, fun a ha b hb => by
          rintro rfl
          exact hnot k i (mem_singleton.mp hb ▸ ha)⟩
    next => exact h.nodup k' i'
  · intro x i' hx
    rcases hin.mp hx with hx | ⟨rfl, rfl, rfl⟩
    · exact h.near hx
    · exact hplaced
  · intro x n i' hx
    rcases hin.mp hx with hx | ⟨rfl, rfl, rfl⟩
    · exact h.far hx
    · obtain ⟨hexp, hlt⟩ := hfar (Nat.succ_ne_zero n)
      refine ⟨hplaced.1, hexp, hlt, hplaced.2.mono ?_⟩
      split <;> omega

lemma add (ht : ¬P t) (hexp : expires t = due t % 2 ^ g.word.bits) (hle : now ≤ due t)
    (hlt : due t < now + 2 ^ (g.word.bits - 1)) :
    WheelOk g now c due expires (fun x => x = t ∨ P x) (internalAddTimer g expires base t) := by
  unfold internalAddTimer
  rw [h.jiffies, hexp]
  exact h.append ht (slotOf_placed hle hlt) fun _ => ⟨hexp, hlt⟩

lemma clear (k i : Nat) :
    WheelOk g now c due expires (fun x => P x ∧ x ∉ base.tv k i) (base.setVec k i []) := by
  have hin : ∀ {x k' i'}, x ∈ (base.setVec k i []).tv k' i'
      ↔ x ∈ base.tv k' i' ∧ ¬(k' = k ∧ i' = i) := by
    intro x k' i'
    rw [tv_setVec]
    split
    next heq => simp [heq]
    next hne => simp [hne]
  refine ⟨h.jiffies, ?_, fun h1 h2 => h.unique (hin.mp h1).1 (hin.mp h2).1,
    ?_, fun ht => h.near (hin.mp ht).1, fun ht => h.far (hin.mp ht).1⟩
  · intro x
    simp only [hin]
    constructor
    · intro ⟨hx, hnot⟩
      obtain ⟨k', i', hx⟩ := (h.mem x).mp hx
      refine ⟨k', i', hx, fun heq => ?_⟩
      rw [heq.1, heq.2] at hx
      exact hnot hx
    · intro ⟨k', i', hx, hne⟩
      exact ⟨(h.mem x).mpr ⟨k', i', hx⟩, fun hx' => hne (h.unique hx hx')⟩
  · intro k' i'
    rw [tv_setVec]
    split
    next => exact nodup_nil
    next => exact h.nodup k' i'

lemma addAll {l : List T} (hnodup : l.Nodup) (hnot : ∀ t ∈ l, ¬P t)
    (hl : ∀ t ∈ l, expires t = due t % 2 ^ g.word.bits ∧ now ≤ due t ∧
      due t < now + 2 ^ (g.word.bits - 1)) :
    WheelOk g now c due expires (fun x => x ∈ l ∨ P x)
      (l.foldl (internalAddTimer g expires) base) := by
  induction l generalizing base P with
  | nil => exact h.congr fun t => by simp
  | cons t l ih =>
    obtain ⟨hexp, hle, hlt⟩ := hl t mem_cons_self
    obtain ⟨htl, hnodup⟩ := nodup_cons.mp hnodup
    have hadd := h.add (hnot t mem_cons_self) hexp hle hlt
    refine (ih hadd hnodup ?_ fun x hx =>
      hl x (mem_cons_of_mem t hx)).congr fun x => ?_
    · intro x hx hxt
      rcases hxt with rfl | hxt
      · exact htl hx
      · exact hnot x (mem_cons_of_mem t hx) hxt
    · rw [mem_cons, or_assoc, or_left_comm]

lemma raise (hnext : ∀ t i, t ∈ base.tv (c + 1) i → 2 ^ g.shift (c + 1) ∣ now →
      now / 2 ^ g.shift (c + 1) % g.tvnSize ≠ i) :
    WheelOk g now (c + 1) due expires P base := by
  refine ⟨h.jiffies, h.mem, h.unique, h.nodup, h.near, fun {t n i} ht => ?_⟩
  obtain ⟨hn, hexp, hlt, hvisit⟩ := h.far ht
  refine ⟨hn, hexp, hlt, ?_⟩
  rcases Nat.lt_trichotomy n c with hnc | rfl | hnc
  · rw [if_pos hnc] at hvisit
    rw [if_pos (by omega)]
    exact hvisit
  · rw [if_neg (lt_irrefl n)] at hvisit
    rw [if_pos (Nat.lt_succ_self n)]
    exact hvisit.later (hnext t i ht)
  · rw [if_neg (by omega)] at hvisit ⊢
    exact hvisit

lemma index_eq (hn : n < 4) : index g base (n + 1) = now / 2 ^ g.shift (n + 1) % g.tvnSize := by
  unfold index Geometry.tvnSize
  rw [h.jiffies, slot_mod ((g.shift_le hn).trans g.le_word)]

/-- Cascading one array. -/
theorem cascade (hc : c < 4) :
    WheelOk g now (c + 1) due expires P
      (cascade g expires base (c + 1) (index g base (c + 1))) := by
  rw [h.index_eq hc]
  have hclear := (h.clear (c + 1)
    (now / 2 ^ g.shift (c + 1) % g.tvnSize)).raise fun t i ht _ heq => by
      rw [tv_setVec, if_pos ⟨rfl, heq.symm⟩] at ht
      cases ht
  refine (hclear.addAll (h.nodup _ _) (fun t ht hnot => hnot.2 ht) fun t ht => ?_).congr fun t => ?_
  · obtain ⟨-, hexp, hlt, v, hlo, hhi, -⟩ := h.far ht
    rw [if_neg (lt_irrefl c)] at hlo
    exact ⟨hexp, hlo.trans hhi, hlt⟩
  have := h.mem t
  constructor
  · intro hP
    by_cases hin : t ∈ base.tv (c + 1) (now / 2 ^ g.shift (c + 1) % g.tvnSize)
    · exact .inl hin
    · exact .inr ⟨hP, hin⟩
  · intro hor
    rcases hor with hin | ⟨hP, -⟩
    · exact this.mpr ⟨_, _, hin⟩
    · exact hP

lemma finish (hnot : ¬2 ^ g.shift (c + 1) ∣ now) : WheelOk g now 4 due expires P base := by
  refine ⟨h.jiffies, h.mem, h.unique, h.nodup, h.near, fun {t n i} ht => ?_⟩
  obtain ⟨hn, hexp, hlt, hvisit⟩ := h.far ht
  refine ⟨hn, hexp, hlt, ?_⟩
  rw [if_pos hn]
  by_cases hnc : n < c
  · rw [if_pos hnc] at hvisit
    exact hvisit
  rw [if_neg hnc] at hvisit
  apply hvisit.later
  intro hdvd
  have hle : g.shift (c + 1) ≤ g.shift (n + 1) := by
    rw [g.shift_array, g.shift_array]
    exact Nat.add_le_add_left (Nat.mul_le_mul_right _ (by omega)) _
  exact absurd ((pow_dvd_pow 2 hle).trans hdvd) hnot

end

lemma cascades (m : Nat) (hcm : c + m = 4) (h : WheelOk g now c due expires P base) :
    WheelOk g now 4 due expires P (cascades g expires (List.range' (c + 1) m) base) := by
  induction m generalizing c base with
  | zero =>
    obtain rfl : c = 4 := by omega
    exact h
  | succ m ih =>
    have hnext := h.cascade (by omega)
    rw [range'_succ]
    unfold Timer.cascades
    rw [h.index_eq (by omega)] at hnext ⊢
    split
    next => exact ih (by omega) hnext
    next hzero =>
      apply hnext.finish
      intro hdvd
      apply hzero
      rw [g.shift_array, Nat.succ_mul, ← add_assoc, ← g.shift_array, pow_add] at hdvd
      obtain ⟨q, rfl⟩ := hdvd
      rw [mul_assoc, Nat.mul_div_cancel_left _ (Nat.two_pow_pos _)]
      exact Nat.mul_mod_right _ _

/-- A tick: the work list is what is due at it, and the rest is left for
the ticks after it. -/
theorem takeTick (h : WheelOk g now 0 due expires P base) :
    WheelOk g (now + 1) 0 due expires (fun x => P x ∧ x ∉ (takeTick g expires base).1)
        (takeTick g expires base).2 ∧
      (takeTick g expires base).1.Nodup ∧
      ∀ t ∈ (takeTick g expires base).1, P t ∧ due t = now := by
  have hslot : base.timerJiffies &&& (g.tvrSize - 1) = now % g.tvrSize := by
    unfold Geometry.tvrSize
    rw [h.jiffies, Nat.and_two_pow_sub_one_eq_mod, Nat.mod_mod_of_dvd]
    apply pow_dvd_pow
    have := g.le_word
    rcases g.cases with ⟨hr, -⟩ | ⟨hr, -⟩ <;> omega
  unfold Timer.takeTick
  dsimp only
  rw [hslot]
  -- after the cascades nothing is left to do but `tv1`
  have hready : WheelOk g now 4 due expires P
      (if now % g.tvrSize = 0 then Timer.cascades g expires [1, 2, 3, 4] base
        else base) := by
    split
    next => exact h.cascades 4 rfl
    next hne =>
      apply h.finish
      intro hdvd
      rw [g.shift_array, zero_mul] at hdvd
      exact hne (Nat.mod_eq_zero_of_dvd hdvd)
  generalize (if now % g.tvrSize = 0 then
    Timer.cascades g expires [1, 2, 3, 4] base else base) = base at hready
  have hclear := hready.clear 0 (now % g.tvrSize)
  have hdue : ∀ t ∈ base.tv 0 (now % g.tvrSize), due t = now := by
    intro t ht
    obtain ⟨hle, hlt, hmod⟩ := hready.near ht
    have hzero := Nat.sub_mod_eq_zero_of_mod_eq hmod
    rw [Nat.mod_eq_of_lt (by omega)] at hzero
    omega
  refine ⟨⟨?_, hclear.mem, hclear.unique, hclear.nodup, ?_, ?_⟩,
    hready.nodup _ _, fun t ht => ⟨(hready.mem t).mpr ⟨_, _, ht⟩, hdue t ht⟩⟩
  · rw [hready.jiffies, unsigned_natCast, Nat.mod_add_mod]
  · intro t i ht
    obtain ⟨hle, hlt, hmod⟩ := hclear.near ht
    refine ⟨?_, by omega, hmod⟩
    rcases Nat.lt_or_eq_of_le hle with hlt | heq
    · exact hlt
    · rw [← heq] at hmod
      have hmem : t ∈ (base.setVec 0 (now % g.tvrSize) []).tv 0 i := ht
      rw [tv_setVec, if_pos ⟨rfl, hmod.symm⟩] at hmem
      cases hmem
  · intro t n i ht
    obtain ⟨hn, hexp, hlt, hvisit⟩ := hclear.far ht
    rw [if_pos hn] at hvisit
    exact ⟨hn, hexp, by omega, hvisit⟩

lemma detach [DecidableEq T] (h : WheelOk g now c due expires P base) (t : T) :
    WheelOk g now c due expires (fun x => P x ∧ x ≠ t)
      { base with tv := fun k i => (base.tv k i).erase t } := by
  have hin : ∀ {x k i}, x ∈ (base.tv k i).erase t
      ↔ x ≠ t ∧ x ∈ base.tv k i := (h.nodup _ _).mem_erase_iff
  refine ⟨h.jiffies, ?_, fun h1 h2 => h.unique (hin.mp h1).2 (hin.mp h2).2,
    fun k i => (h.nodup k i).erase t, fun hx => h.near (hin.mp hx).2, fun hx => h.far (hin.mp hx).2⟩
  intro x
  simp only [hin, h.mem x]
  constructor
  · intro ⟨⟨k, i, hx⟩, hne⟩
    exact ⟨k, i, hne, hx⟩
  · intro ⟨k, i, hne, hx⟩
    exact ⟨⟨k, i, hx⟩, hne⟩

end WheelOk

end

open Option Int

variable {T : Type u} [DecidableEq T] {g : Geometry} {start : Nat}
variable {e : Nat} {op : Op T} {s : System T} {t : T}

-- == histories

/-- The tick each pending timer is due at, from what happened so far, newest
first. -/
def due (g : Geometry) (start : Nat) : List (Op T) → T → Option Nat
  | [], _ => none
  | .add t e :: past, x =>
    if x = t then some (dueTick g (now start past) e)
    else due g start past x
  | .del t :: past, x => if x = t then none else due g start past x
  | .fire t :: past, x => if x = t then none else due g start past x
  | .advance _ :: past, x => due g start past x
  | .tick :: past, x => due g start past x

/-- A timer fires while the tick it is due at is processed, a tick begins
when nothing is due before it, and only a timer that is not pending is
added. -/
def Orderly (g : Geometry) (start : Nat) : List (Op T) → Prop
  | [] => True
  | .add t _ :: past => due g start past t = none ∧ Orderly g start past
  | .fire t :: past =>
    (∃ d, due g start past t = some d ∧ now start past = d + 1) ∧ Orderly g start past
  | .tick :: past =>
    (∀ t d, due g start past t = some d → now start past ≤ d) ∧ Orderly g start past
  | .del _ :: past => Orderly g start past
  | .advance _ :: past => Orderly g start past

lemma now_tick (past : List (Op T)) : now start (.tick :: past) = now start past + 1 := by
  unfold now
  rw [count_cons_self, add_assoc]

lemma now_other (past : List (Op T)) (h : op ≠ .tick) :
    now start (op :: past) = now start past := by
  unfold now
  rw [count_cons_of_ne h]

-- == adding a timer

lemma dueTick_future {b : Nat} (h : 0 ≤ signed g.word.bits ((e : Int) - (b : Int))) :
    dueTick g b e % 2 ^ g.word.bits = e % 2 ^ g.word.bits ∧
      b ≤ dueTick g b e ∧ dueTick g b e < b + 2 ^ (g.word.bits - 1) := by
  have hhalf := g.half_word.1
  have hlt := bmod_lt (x := (e : Int) - (b : Int)) (Nat.two_pow_pos g.word.bits)
  have hq := bmod_eq_self_sub_mul_bdiv ((e : Int) - (b : Int)) (2 ^ g.word.bits)
  unfold dueTick
  unfold signed at h ⊢
  refine ⟨?_, Nat.le_add_right _ _, ?_⟩
  · have hcast : ((b + (((e : Int) - (b : Int)).bmod (2 ^ g.word.bits)).toNat : Nat) : Int)
        = e - (2 ^ g.word.bits : Nat) * ((e : Int) - (b : Int)).bdiv (2 ^ g.word.bits) := by
      omega
    have hmod := congrArg (· % ((2 ^ g.word.bits : Nat) : Int)) hcast
    simp only [sub_mul_emod_self_left] at hmod
    exact_mod_cast hmod
  · omega

lemma Geometry.reach_lt (g : Geometry) :
    g.tvrSize ≤ 2 ^ 31 ∧ 2 ^ (g.tvrBits + g.tvnBits) ≤ 2 ^ 31 ∧
      2 ^ (g.tvrBits + 2 * g.tvnBits) ≤ 2 ^ 31 ∧
      2 ^ (g.tvrBits + 3 * g.tvnBits) ≤ 2 ^ 31 := by
  unfold Geometry.tvrSize
  rcases g.cases with ⟨hr, hn⟩ | ⟨hr, hn⟩ <;> rw [hr, hn] <;> decide

lemma slotOf_past {b : Nat} (h : signed g.word.bits ((e : Int) - (b : Int)) < 0) :
    slotOf g (b % 2 ^ g.word.bits) (e % 2 ^ g.word.bits)
      = (0, b % g.tvrSize) ∧ dueTick g b e = b := by
  have hhalf := g.half_word
  have hreach := g.reach_lt
  have hpow : ((2 ^ g.word.bits : Nat) : Int) = 2 ^ g.word.bits := by
    rfl
  -- the distance as a word is in the upper half
  have hidx : (unsigned g.word.bits (((e % 2 ^ g.word.bits : Nat) : Int)
      - ((b % 2 ^ g.word.bits : Nat) : Int)) : Int)
        = ((e : Int) - (b : Int)) % (2 ^ g.word.bits : Nat) := by
    unfold unsigned
    rw [natCast_mod, natCast_mod, hpow, ← sub_emod, toNat_of_nonneg (emod_nonneg _ (by omega))]
  have hupper : (2 ^ (g.word.bits - 1) : Nat)
      ≤ ((e : Int) - (b : Int)) % (2 ^ g.word.bits : Nat) := by
    unfold signed bmod at h
    dsimp only at h
    split at h <;> omega
  constructor
  · have hneg : signed g.word.bits (unsigned g.word.bits (((e % 2 ^ g.word.bits : Nat) : Int)
          - ((b % 2 ^ g.word.bits : Nat) : Int)) : Int) < 0 := by
      rw [hidx]
      unfold signed
      rw [emod_bmod]
      exact h
    unfold slotOf
    rw [if_neg (by omega), if_neg (by omega), if_neg (by omega), if_neg (by omega), if_pos hneg]
    unfold Geometry.tvrSize
    rw [Nat.and_two_pow_sub_one_eq_mod, Nat.mod_mod_of_dvd]
    apply pow_dvd_pow
    have := g.le_word
    rcases g.cases with ⟨hr, -⟩ | ⟨hr, -⟩ <;> omega
  · unfold dueTick
    rw [toNat_of_nonpos (by omega), add_zero]

-- == invariant

structure SysOk (g : Geometry) (start : Nat) (past : List (Op T)) (s : System T) : Prop where
  wheel : WheelOk g (now start past) 0 (fun t => (due g start past t).getD 0) s.expires
    (fun t => s.pending t = true ∧ t ∉ s.workList) s.base
  pending : ∀ t, s.pending t = true ↔ (due g start past t).isSome
  nodup : s.workList.Nodup
  work : ∀ t ∈ s.workList, ∃ d, due g start past t = some d ∧ now start past = d + 1
  orderly : Orderly g start past

lemma init_ok : SysOk g start ([] : List (Op T)) (init g start) where
  wheel :=
    { jiffies := unsigned_natCast _ _
      mem := fun t => by
        simp only [init, Bool.false_eq_true, false_and, not_mem_nil, exists_false]
      unique := fun h => absurd h not_mem_nil
      nodup := fun _ _ => nodup_nil
      near := fun h => absurd h not_mem_nil
      far := fun h => absurd h not_mem_nil }
  pending t := by simp [init, due]
  nodup := nodup_nil
  work t ht := absurd ht not_mem_nil
  orderly := trivial

variable {past : List (Op T)}

lemma SysOk.pending_update {d : Option Nat} {b : Bool} (h : SysOk g start past s)
    (hb : b = d.isSome)
    (hdue : ∀ x, due g start (op :: past) x = if x = t then d else due g start past x) (x : T) :
    update s.pending t b x = true ↔ (due g start (op :: past) x).isSome = true := by
  rw [hdue]
  by_cases hx : x = t
  · rw [if_pos hx, hx, update_self, hb]
  · rw [if_neg hx, update_of_ne hx]
    exact h.pending x

/-- A timer leaves its list, by a removal or because it fires. -/
lemma SysOk.detach (h : SysOk g start past s) (hop : op ≠ .tick)
    (hdue : ∀ x, due g start (op :: past) x = if x = t then none else due g start past x)
    (horderly : Orderly g start (op :: past)) :
    SysOk g start (op :: past) (detachTimer s t) := by
  have hnow : now start (op :: past) = now start past := now_other past hop
  have hmem : ∀ {x}, x ∈ s.workList.erase t ↔ x ≠ t ∧ x ∈ s.workList := h.nodup.mem_erase_iff
  refine ⟨?_, ?_, h.nodup.erase t, ?_, horderly⟩
  · rw [hnow]
    have htimes := (h.wheel.detach t).retime
      (fun x => (due g start (op :: past) x).getD 0) s.expires fun x hx => by
        rw [hdue, if_neg hx.2]
        exact ⟨rfl, rfl⟩
    refine htimes.congr fun x => ?_
    unfold detachTimer
    dsimp only
    rw [hmem]
    by_cases hx : x = t
    · subst hx
      simp
    · simp [hx]
  · exact h.pending_update rfl hdue
  · intro x hx
    obtain ⟨hne, hx⟩ := hmem.mp hx
    rw [hdue, if_neg hne, hnow]
    exact h.work x hx

lemma SysOk.add (h : SysOk g start past s) (ht : ¬s.pending t = true) :
    SysOk g start (.add t e :: past) { s with
        expires := update s.expires t (unsigned g.word.bits (e : Int))
        pending := update s.pending t true
        base := internalAddTimer g (update s.expires t
          (unsigned g.word.bits (e : Int))) s.base t } := by
  have hnow : now start (.add t e :: past) = now start past := now_other past nofun
  have hdue : ∀ x, due g start (.add t e :: past) x
      = if x = t then some (dueTick g (now start past) e)
        else due g start past x := fun _ => rfl
  have hwork : t ∉ s.workList := by
    intro hmem
    obtain ⟨d, hd, -⟩ := h.work t hmem
    exact ht ((h.pending t).mpr (by rw [hd]; rfl))
  generalize hall : update s.expires t (unsigned g.word.bits (e : Int)) = expires
  -- the times of the others are as before
  have hwheel := h.wheel.retime
    (fun x => (due g start (.add t e :: past) x).getD 0) expires fun x hx => by
      have hne : x ≠ t := by
        intro heq
        exact ht (heq ▸ hx.1)
      rw [hdue, if_neg hne, ← hall, update_of_ne hne]
      exact ⟨rfl, rfl⟩
  have hdue' : (due g start (.add t e :: past) t).getD 0 = dueTick g (now start past) e := by
    rw [hdue, if_pos rfl]
    rfl
  have hexp : expires t = e % 2 ^ g.word.bits := by rw [← hall, update_self, unsigned_natCast]
  have hadded : WheelOk g (now start past) 0
      (fun x => (due g start (.add t e :: past) x).getD 0) expires
      (fun x => x = t ∨ s.pending x = true ∧ x ∉ s.workList)
      (internalAddTimer g expires s.base t) := by
    by_cases hneg : signed g.word.bits ((e : Int) - (now start past : Nat)) < 0
    · obtain ⟨hslot, hpast⟩ := slotOf_past hneg
      unfold internalAddTimer
      rw [hwheel.jiffies, hexp, hslot]
      refine hwheel.append (fun hP => ht hP.1) ?_ (fun hk => absurd rfl hk)
      rw [hdue', hpast]
      refine ⟨le_rfl, ?_, rfl⟩
      exact Nat.lt_add_of_pos_right (Nat.two_pow_pos _)
    · obtain ⟨hmod, hle, hlt⟩ := dueTick_future (not_lt.mp hneg)
      apply hwheel.add (fun hP => ht hP.1)
      · rw [hexp, hdue', hmod]
      · rw [hdue']
        exact hle
      · rw [hdue']
        exact hlt
  refine ⟨?_, ?_, h.nodup, ?_, ?_, h.orderly⟩
  · rw [hnow]
    refine hadded.congr fun x => ?_
    dsimp only
    by_cases hx : x = t
    · subst hx
      simp [hwork]
    · simp [hx]
  · exact h.pending_update rfl hdue
  · intro x hx
    have hne : x ≠ t := by
      rintro rfl
      exact hwork hx
    rw [hdue, if_neg hne, hnow]
    exact h.work x hx
  · rw [← not_isSome_iff_eq_none, ← h.pending]
    exact ht

lemma SysOk.tick (h : SysOk g start past s) (hidle : s.workList = []) :
    SysOk g start (.tick :: past) { s with
        base := (takeTick g s.expires s.base).2
        workList := (takeTick g s.expires s.base).1 } := by
  obtain ⟨hwheel, hnodup, hwork⟩ := h.wheel.takeTick
  refine ⟨?_, h.pending, hnodup, ?_, ?_, h.orderly⟩
  · rw [now_tick]
    refine hwheel.congr fun x => ?_
    rw [hidle]
    simp
  · intro t ht
    obtain ⟨⟨hpending, -⟩, hd⟩ := hwork t ht
    obtain ⟨d, hd'⟩ := isSome_iff_exists.mp ((h.pending t).mp hpending)
    refine ⟨d, hd', ?_⟩
    rw [hd', getD_some] at hd
    rw [now_tick, hd]
  · intro t d hd
    have hon : s.pending t = true ∧ t ∉ s.workList := by
      rw [h.pending, hd, hidle]
      exact ⟨rfl, not_mem_nil⟩
    have hle := h.wheel.le_due hon
    rw [hd] at hle
    exact hle

lemma step_ok {s' : System T} (h : SysOk g start past s) (hstep : step g s op = some s') :
    SysOk g start (op :: past) s' := by
  unfold step at hstep
  cases op with
  | add t e =>
    dsimp only at hstep
    split at hstep
    next => cases hstep
    next ht =>
      obtain rfl := some.inj hstep
      exact h.add ht
  | del t =>
    dsimp only at hstep
    split at hstep
    next =>
      obtain rfl := some.inj hstep
      exact h.detach nofun (fun _ => rfl) h.orderly
    next => cases hstep
  | advance n =>
    obtain rfl := some.inj hstep
    have hnow : now start (.advance n :: past) = now start past := now_other past nofun
    refine ⟨?_, h.pending, h.nodup, ?_, h.orderly⟩
    · rw [hnow]
      exact h.wheel
    · rw [hnow]
      exact h.work
  | tick =>
    dsimp only at hstep
    split at hstep
    next hidle =>
      obtain rfl := some.inj hstep
      exact h.tick hidle.1
    next => cases hstep
  | fire t =>
    dsimp only at hstep
    split at hstep
    next hhead =>
      obtain rfl := some.inj hstep
      obtain ⟨d, hd⟩ := h.work t (List.mem_of_head? hhead)
      exact h.detach nofun (fun _ => rfl) ⟨⟨d, hd⟩, h.orderly⟩
    next => cases hstep

-- == a timer's life

lemma Orderly.tail (h : Orderly g start (op :: past)) : Orderly g start past := by
  cases op with
  | add t e => exact h.2
  | del t | advance n => exact h
  | tick | fire t => exact h.2

lemma due_cons (past : List (Op T))
    (hfire : op ≠ .fire t) (hdel : op ≠ .del t) (hadd : ∀ e, op ≠ .add t e) :
    due g start (op :: past) t = due g start past t := by
  cases op with
  | add t' e =>
    have hne : t ≠ t' := fun heq => hadd e (by rw [heq])
    exact if_neg hne
  | del t' =>
    have hne : t ≠ t' := fun heq => hdel (by rw [heq])
    exact if_neg hne
  | advance n | tick => rfl
  | fire t' =>
    have hne : t ≠ t' := fun heq => hfire (by rw [heq])
    exact if_neg hne

/-- What has become of a timer that was added after `past`, and neither
removed nor added again since: it is still pending and its tick not over, or
it has fired, once and during its tick. The induction is on what happened
since, newest first. -/
lemma life_of_orderly {past recent : List (Op T)}
    (h : Orderly g start (recent ++ .add t e :: past))
    (hdel : .del t ∉ recent) (hadd : ∀ e', .add t e' ∉ recent) :
    (recent.count (.fire t) = 0 ∧ due g start (recent ++ .add t e :: past) t
          = some (dueTick g (now start past) e) ∧ now start (recent ++ .add t e :: past)
          ≤ dueTick g (now start past) e + 1) ∨
      (recent.count (.fire t) = 1 ∧ due g start (recent ++ .add t e :: past) t = none ∧
        ∀ r1 r2, recent = r1 ++ .fire t :: r2 → now start (r2 ++ .add t e :: past)
            = dueTick g (now start past) e + 1) := by
  induction recent with
  | nil =>
    refine .inl ⟨rfl, if_pos rfl, ?_⟩
    have hnow : now start (.add t e :: past) = now start past := now_other past nofun
    rw [nil_append, hnow]
    unfold dueTick
    omega
  | cons op recent ih =>
    rw [cons_append] at h ⊢
    have ih := ih h.tail (fun hmem => hdel (mem_cons_of_mem op hmem))
      fun e' hmem => hadd e' (mem_cons_of_mem op hmem)
    have hdel' : op ≠ .del t := fun heq => hdel (heq ▸ mem_cons_self)
    have hadd' : ∀ e', op ≠ .add t e' := fun e' heq => hadd e' (heq ▸ mem_cons_self)
    by_cases hfire : op = .fire t
    · subst hfire
      obtain ⟨⟨d, hd, hnow⟩, -⟩ := h
      rcases ih with ⟨hcount, hdue, -⟩ | ⟨-, hdue, -⟩
      · obtain rfl := some.inj (hdue.symm.trans hd)
        refine .inr ⟨by rw [count_cons_self, hcount], if_pos rfl, ?_⟩
        intro r1 r2 heq
        cases r1 with
        | nil =>
          obtain rfl := (List.cons.inj heq).2
          exact hnow
        | cons op' r1 =>
          have hmem : Op.fire t ∈ recent := by
            rw [(List.cons.inj heq).2]
            exact mem_append_right _ mem_cons_self
          exact absurd hmem (count_eq_zero.mp hcount)
      · simp [hdue] at hd
    · rw [due_cons _ hfire hdel' hadd', count_cons_of_ne hfire]
      rcases ih with ⟨hcount, hdue, hnow⟩ | ⟨hcount, hdue, hall⟩
      · refine .inl ⟨hcount, hdue, ?_⟩
        by_cases htick : op = .tick
        · subst htick
          rw [now_tick]
          exact Nat.succ_le_succ (h.1 t _ hdue)
        · rw [now_other _ htick]
          exact hnow
      · refine .inr ⟨hcount, hdue, fun r1 r2 heq => ?_⟩
        cases r1 with
        | nil => exact absurd (List.cons.inj heq).1 hfire
        | cons op' r1 => exact hall r1 r2 (List.cons.inj heq).2

lemma now_reverse (l : List (Op T)) : now start l.reverse = now start l := by
  unfold now
  rw [count_reverse]

/-- Timers fire exactly once, and on the right tick. In every trace, a
timer that is added when the base stands at `b` and is not removed later
fires at most once, only while the tick at which it is due is processed, and
has fired when that tick is over. -/
theorem timer_fires_once (g : Geometry) (start : Nat) (before after : List (Op T)) (t : T)
    (e : Nat) (s : System T)
    (hrun : (before ++ .add t e :: after).foldlM (step g) (init g start) = some s)
    (hdel : .del t ∉ after) (hadd : ∀ e', .add t e' ∉ after) :
    s.base.timerJiffies = now start (before ++ .add t e :: after) % 2 ^ g.word.bits ∧
      after.count (.fire t) ≤ 1 ∧
      (∀ a₁ a₂, after = a₁ ++ .fire t :: a₂ → now start (before ++ .add t e :: a₁)
          = dueTick g (now start before) e + 1) ∧
      (dueTick g (now start before) e + 1 < now start (before ++ .add t e :: after) ∨
        dueTick g (now start before) e + 1
            = now start (before ++ .add t e :: after) ∧ s.workList = [] →
        after.count (.fire t) = 1) := by
  have hok := trace_invariant (I := SysOk g start)
    (fun _ _ _ _ h hstep => step_ok h hstep) _ [] _ _ init_ok hrun
  have hreverse : ∀ a : List (Op T), (before ++ .add t e :: a).reverse
      = a.reverse ++ .add t e :: before.reverse := by
    intro a
    rw [reverse_append, reverse_cons, append_assoc, singleton_append]
  have hnow : ∀ a : List (Op T), now start (a.reverse
      ++ .add t e :: before.reverse) = now start (before ++ .add t e :: a) :=
    fun a => by rw [← hreverse, now_reverse]
  rw [append_nil, hreverse] at hok
  refine ⟨by rw [hok.wheel.jiffies, hnow], ?_⟩
  have hlife := life_of_orderly hok.orderly (fun hmem => hdel (mem_reverse.mp hmem))
    (fun e' hmem => hadd e' (mem_reverse.mp hmem))
  rw [count_reverse, now_reverse, hnow] at hlife
  rcases hlife with ⟨hcount, hdue, hle⟩ | ⟨hcount, hdue, hall⟩
  · refine ⟨by omega, fun a₁ a₂ heq => ?_, fun hover => ?_⟩
    · have hmem : Op.fire t ∈ after := by
        rw [heq]
        exact mem_append_right _ mem_cons_self
      exact absurd hmem (count_eq_zero.mp hcount)
    -- with its tick over it would still be on the wheel, behind the base
    exfalso
    rcases hover with hlt | ⟨heq, hidle⟩
    · omega
    have hon : s.pending t = true ∧ t ∉ s.workList := by
      rw [hok.pending, hdue, hidle]
      exact ⟨rfl, not_mem_nil⟩
    have hlate := hok.wheel.le_due hon
    rw [hdue, hnow, getD_some] at hlate
    omega
  · refine ⟨by omega, fun a₁ a₂ heq => ?_, fun _ => hcount⟩
    rw [← hnow]
    apply hall a₂.reverse a₁.reverse
    rw [heq, reverse_append, reverse_cons, append_assoc, singleton_append]

/-- A timer added two ticks ahead, just before the counter wraps. -/
def wrapTrace : List (Op Nat) := [.advance 5, .tick, .tick, .tick, .fire 0, .tick]

theorem timer_fires_once_wrap :
    ∃ s, ([] ++ Op.add 0 1 :: wrapTrace).foldlM (step ⟨.w32, true⟩)
        (init ⟨.w32, true⟩ 4294967295) = some s ∧
      s.base.timerJiffies = 3 ∧ wrapTrace.count (.fire 0) = 1 := by
  have hsome : (([] ++ Op.add 0 1 :: wrapTrace).foldlM (step ⟨.w32, true⟩)
      (init ⟨.w32, true⟩ 4294967295)).isSome := by decide
  obtain ⟨s, hrun⟩ := isSome_iff_exists.mp hsome
  have honce := timer_fires_once ⟨.w32, true⟩ 4294967295 [] wrapTrace 0 1 s
    hrun (by decide) (by simp [wrapTrace])
  exact ⟨s, hrun, honce.1, honce.2.2.2 (.inl (by decide))⟩

end BoardStack.Timer
