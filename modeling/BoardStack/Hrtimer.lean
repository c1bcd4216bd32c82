/-
`hrtimer_forward` moves a periodic timer to the first period after now:
kernel/hrtimer.c and the `ktime_t` arithmetic of include/linux/ktime.h.

A `ktime_t` is its `tv64`. On 64-bit machines, and on 32-bit machines with
CONFIG_KTIME_SCALAR, that is a number of nanoseconds; on other 32-bit
machines the union has seconds in the upper half and nanoseconds in the
lower one, and the functions work on the two halves. `ktime c t` is the `ktime_t`
of `t` nanoseconds, and the functions are first read as arithmetic on nanoseconds,
for every representation.

On 32-bit machines the division drops low bits of a long interval: the number
of periods is then exact or one too large, and in the second case the new
expiry is past now already and the correction is not made.
-/
import BoardStack.Base.CInt

namespace BoardStack.Hrtimer

open Base

/-- How `ktime_t` is kept. -/
inductive Config
  | long64
  | scalar32
  | union32
deriving DecidableEq, Repr

def nsecPerSec : Nat := 1000000000

def ktimeMax : Int := 2 ^ 63 - 1

def ktimeSecMax : Config → Int
  | .long64 => ktimeMax / nsecPerSec
  | _ => 2 ^ 31 - 1

/-- An `s64`. -/
def s64 (x : Int) : Int := signed 64 x

-- == the two halves

/-- `kt.tv.nsec`. -/
def tvNsec (kt : Int) : Int := signed 32 kt

/-- `kt.tv.sec`. -/
def tvSec (kt : Int) : Int := signed 32 (kt / 2 ^ 32)

/-- The `tv64` of two halves. -/
def tv (sec nsec : Int) : Int := s64 (signed 32 sec * 2 ^ 32 + unsigned 32 nsec)

-- == arithmetic

def ktimeSet (c : Config) (secs : Int) (nsecs : Nat) : Int :=
  match c with
  | .long64 =>
    if secs ≥ ktimeSecMax c then ktimeMax
    else s64 (secs * nsecPerSec + nsecs)
  | .scalar32 => s64 (secs * nsecPerSec + nsecs)
  | .union32 => tv secs nsecs

def ktimeSub (c : Config) (lhs rhs : Int) : Int :=
  let res := s64 (lhs - rhs)
  match c with
  | .union32 =>
    if tvNsec res < 0 then tv (tvSec res) (tvNsec res + nsecPerSec)
    else res
  | _ => res

def ktimeAdd (c : Config) (add1 add2 : Int) : Int :=
  let res := s64 (add1 + add2)
  match c with
  | .union32 =>
    if tvNsec res ≥ nsecPerSec then s64 (res + unsigned 32 (-nsecPerSec))
    else res
  | _ => res

def ktimeAddNs (c : Config) (kt : Int) (nsec : Nat) : Int :=
  match c with
  | .union32 =>
    if nsec < nsecPerSec then ktimeAdd c kt nsec
    else ktimeAdd c kt (ktimeSet c (signed 32 (nsec / nsecPerSec : Nat)) (nsec % nsecPerSec))
  | _ => s64 (kt + nsec)

def ktimeToNs (c : Config) (kt : Int) : Int :=
  match c with
  | .union32 => s64 (tvSec kt * nsecPerSec + tvNsec kt)
  | _ => kt

def ktimeAddSafe (c : Config) (lhs rhs : Int) : Int :=
  let res := ktimeAdd c lhs rhs
  if res < 0 ∨ res < lhs ∨ res < rhs then ktimeSet c (ktimeSecMax c) 0
  else res

/-- The loop of `ktime_divns` that makes the divisor less than `2 ^ 32`. -/
def shortenDiv : Nat → Nat → Int → Option (Nat × Int)
  | 0, _, _ => none
  | fuel + 1, sft, div =>
    if div >>> (32 : Nat) ≠ 0 then
      shortenDiv fuel (sft + 1) (div >>> (1 : Nat))
    else some (sft, div)

/-- `ktime_divns`: a plain division on 64-bit machines. -/
def ktimeDivns (fuel : Nat) (c : Config) (kt div : Int) : Option Nat :=
  match c with
  | .long64 => if div = 0 then none else some (unsigned 64 (kt.tdiv div))
  | _ => do
    let (sft, div) ← shortenDiv fuel 0 div
    let base := unsigned 32 div
    if base = 0 then none
    else some ((unsigned 64 (ktimeToNs c kt) >>> sft) / base)

-- == the timer

/-- What is read and written of `struct hrtimer`, and the resolution of its
base. -/
structure Timer where
  expires : Int
  softexpires : Int
  resolution : Int

def hrtimerAddExpires (c : Config) (timer : Timer) (time : Int) : Timer :=
  { timer with
    expires := ktimeAddSafe c timer.expires time
    softexpires := ktimeAddSafe c timer.softexpires time }

def hrtimerAddExpiresNs (c : Config) (timer : Timer) (ns : Nat) : Timer :=
  { timer with
    expires := ktimeAddNs c timer.expires ns
    softexpires := ktimeAddNs c timer.softexpires ns }

/-- `hrtimer_forward`: the number of overruns. -/
def hrtimerForward (fuel : Nat) (c : Config) (timer : Timer)
    (now interval : Int) : Option (Nat × Timer) := do
  let delta := ktimeSub c now timer.expires
  if delta < 0 then return (0, timer)
  else
    let interval :=
      if interval < timer.resolution then timer.resolution else interval
    if delta ≥ interval then
      let incr := ktimeToNs c interval
      let orun ← ktimeDivns fuel c delta incr
      let timer := hrtimerAddExpiresNs c timer (unsigned 64 (incr * orun))
      if timer.expires > now then return (orun, timer)
      else
        return (unsigned 64 (orun + 1), hrtimerAddExpires c timer interval)
    else return (1, hrtimerAddExpires c timer interval)

open Nat Option

/-- The `ktime_t` of a number of nanoseconds. -/
def ktime (c : Config) (t : Nat) : Int :=
  match c with
  | .union32 => ((t / nsecPerSec * 2 ^ 32 + t % nsecPerSec : Nat) : Int)
  | _ => t

/-- The times a `ktime_t` can hold: with seconds in 32 bits, those below
`2 ^ 31` seconds. -/
def Fits (c : Config) (t : Nat) : Prop :=
  match c with
  | .union32 => t < 2 ^ 31 * nsecPerSec
  | _ => t < 2 ^ 63

-- == the two halves

lemma s64_eq {x : Int} (hlo : -2 ^ 63 ≤ x) (hhi : x < 2 ^ 63) : s64 x = x :=
  signed_eq (w := 63) hlo hhi

section

variable {q r : Int}

lemma tvNsec_eq (hlo : -2 ^ 31 ≤ r) (hhi : r < 2 ^ 31) : tvNsec (q * 2 ^ 32 + r) = r := by
  have hmod : (q * 2 ^ 32 + r).bmod (2 ^ 32) = r.bmod (2 ^ 32) :=
    Int.mul_add_bmod_self_right q (2 ^ 32) r
  exact hmod.trans (signed_eq (w := 31) hlo hhi)

lemma tvSec_eq (hq : -2 ^ 31 ≤ q) (hq' : q < 2 ^ 31) (hr : 0 ≤ r)
    (hr' : r < 2 ^ 32) : tvSec (q * 2 ^ 32 + r) = q := by
  unfold tvSec
  rw [show (q * 2 ^ 32 + r) / 2 ^ 32 = q by omega]
  exact signed_eq (w := 31) hq hq'

lemma tv_eq (hq : -2 ^ 31 ≤ q) (hq' : q < 2 ^ 31) (hr : 0 ≤ r)
    (hr' : r < 2 ^ 32) : tv q r = q * 2 ^ 32 + r := by
  unfold tv
  obtain ⟨k, rfl⟩ := Int.eq_ofNat_of_zero_le hr
  rw [signed_eq (w := 31) hq hq', unsigned_eq (by omega)]
  exact s64_eq (by omega) (by omega)

end

-- == arithmetic

section

variable {c : Config} {x y : Nat}

lemma ktime_union (t : Nat) : ktime .union32 t
    = ((t / 1000000000 : Nat) : Int) * 2 ^ 32 + (t % 1000000000 : Nat) := by
  show ((t / 1000000000 * 2 ^ 32 + t % 1000000000 : Nat) : Int) = _
  omega

lemma Fits.mono (h : Fits c y) (hle : x ≤ y) : Fits c x := by
  cases c <;> exact lt_of_le_of_lt hle h

lemma ktime_lt_iff : ktime c x < ktime c y ↔ x < y := by
  cases c with
  | union32 =>
    rw [ktime_union, ktime_union]
    omega
  | _ => exact Int.ofNat_lt

lemma ktimeAdd_eq (h : Fits c (x + y)) : ktimeAdd c (ktime c x) (ktime c y) = ktime c (x + y) := by
  cases c with
  | union32 =>
    have h : x + y < 2 ^ 31 * 1000000000 := h
    have hsum : s64 (ktime .union32 x + ktime .union32 y)
        = ((x / 1000000000 + y / 1000000000 : Nat) : Int) * 2 ^ 32
          + (x % 1000000000 + y % 1000000000 : Nat) := by
      rw [ktime_union, ktime_union, s64_eq (by omega) (by omega)]
      omega
    have hnsec := tvNsec_eq (q := ((x / 1000000000 + y / 1000000000 : Nat) : Int))
      (r := ((x % 1000000000 + y % 1000000000 : Nat) : Int))
      (by omega) (by omega)
    have hcarry : (unsigned 32 (-(nsecPerSec : Int)) : Int) = 2 ^ 32 - 1000000000 := by decide
    unfold ktimeAdd
    simp only [hsum, hnsec, hcarry]
    rw [ktime_union]
    unfold nsecPerSec
    split
    · rw [s64_eq (by omega) (by omega)]
      omega
    · omega
  | long64 | scalar32 =>
    have h : x + y < 2 ^ 63 := h
    exact s64_eq (x := (x : Int) + y) (by omega) (by omega)

lemma ktimeSub_eq (hx : Fits c x) (hy : Fits c y) :
    (y ≤ x → ktimeSub c (ktime c x) (ktime c y) = ktime c (x - y)) ∧
      (x < y → ktimeSub c (ktime c x) (ktime c y) < 0) := by
  cases c with
  | union32 =>
    have hx : x < 2 ^ 31 * 1000000000 := hx
    have hy : y < 2 ^ 31 * 1000000000 := hy
    -- the differences of the seconds and of the nanoseconds
    obtain ⟨q, hq⟩ : ∃ q : Int, q = (x / 1000000000 : Nat) - (y / 1000000000 : Nat) := ⟨_, rfl⟩
    obtain ⟨r, hr⟩ : ∃ r : Int, r = (x % 1000000000 : Nat) - (y % 1000000000 : Nat) := ⟨_, rfl⟩
    have hnsec := tvNsec_eq (q := q) (r := r) (by omega) (by omega)
    by_cases hle : y % 1000000000 ≤ x % 1000000000
    · have hres : s64 (ktime .union32 x - ktime .union32 y) = q * 2 ^ 32 + r := by
        rw [ktime_union, ktime_union, s64_eq (by omega) (by omega)]
        omega
      unfold ktimeSub
      simp only [hres, hnsec]
      rw [if_neg (by omega), ktime_union]
      exact ⟨fun _ => by omega, fun _ => by omega⟩
    -- a second is borrowed
    have hres : s64 (ktime .union32 x - ktime .union32 y) = (q - 1) * 2 ^ 32 + (2 ^ 32 + r) := by
      rw [ktime_union, ktime_union, s64_eq (by omega) (by omega)]
      omega
    have hsec := tvSec_eq (q := q - 1) (r := 2 ^ 32 + r) (by omega) (by omega) (by omega) (by omega)
    rw [show q * 2 ^ 32 + r = (q - 1) * 2 ^ 32 + (2 ^ 32 + r) by omega] at hnsec
    unfold ktimeSub
    simp only [hres, hnsec, hsec]
    unfold nsecPerSec
    rw [if_pos (by omega), tv_eq (by omega) (by omega) (by omega) (by omega), ktime_union]
    exact ⟨fun _ => by omega, fun _ => by omega⟩
  | long64 | scalar32 =>
    have hx : x < 2 ^ 63 := hx
    have hy : y < 2 ^ 63 := hy
    have hres : s64 ((x : Int) - y) = (x : Int) - y := s64_eq (by omega) (by omega)
    unfold ktimeSub ktime
    simp only [hres]
    exact ⟨fun _ => by omega, fun _ => by omega⟩

lemma ktimeToNs_eq (h : Fits c x) : ktimeToNs c (ktime c x) = x := by
  cases c with
  | union32 =>
    have h : x < 2 ^ 31 * 1000000000 := h
    unfold ktimeToNs nsecPerSec
    simp only [ktime_union]
    rw [tvSec_eq (by omega) (by omega) (by omega) (by omega),
      tvNsec_eq (by omega) (by omega), s64_eq (by omega) (by omega)]
    omega
  | long64 | scalar32 => rfl

lemma ktimeAddNs_eq (h : Fits c (x + y)) : ktimeAddNs c (ktime c x) y = ktime c (x + y) := by
  cases c with
  | union32 =>
    have hlt : x + y < 2 ^ 31 * 1000000000 := h
    have hset : (if y < nsecPerSec then (y : Int) else
        ktimeSet .union32 (signed 32 (y / nsecPerSec : Nat))
          (y % nsecPerSec)) = ktime .union32 y := by
      rw [ktime_union]
      unfold ktimeSet nsecPerSec
      split
      · omega
      · rw [signed_eq (w := 31) (by omega) (by omega)]
        exact tv_eq (by omega) (by omega) (by omega) (by omega)
    rw [← ktimeAdd_eq h, ← hset]
    exact (apply_ite (ktimeAdd .union32 (ktime .union32 x)) ..).symm
  | long64 | scalar32 =>
    have h : x + y < 2 ^ 63 := h
    exact s64_eq (x := (x : Int) + y) (by omega) (by omega)

lemma ktimeAddSafe_eq (h : Fits c (x + y)) :
    ktimeAddSafe c (ktime c x) (ktime c y) = ktime c (x + y) := by
  unfold ktimeAddSafe
  simp only [ktimeAdd_eq h]
  have hzero : ktime c 0 = 0 := by cases c <;> rfl
  rw [← hzero]
  simp only [ktime_lt_iff]
  exact if_neg (by omega)

end

-- == division

lemma shortenDiv_spec (fuel : Nat) : ∀ (sft d : Nat), d < 2 ^ (32 + fuel) →
    ∃ k, shortenDiv (fuel + 1) sft d = some (sft + k, ((d / 2 ^ k : Nat) : Int)) ∧
      d / 2 ^ k < 2 ^ 32 ∧ (k = 0 ∨ 2 ^ 31 ≤ d / 2 ^ k ∧ 2 ^ 32 ≤ d) := by
  have hshift : ∀ d k : Nat, (d : Int) >>> k = ((d / 2 ^ k : Nat) : Int) := fun d k =>
    congrArg Nat.cast (shiftRight_eq_div_pow d k)
  induction fuel with
  | zero =>
    intro sft d hd
    refine ⟨0, ?_, by rw [pow_zero, Nat.div_one]; exact hd, .inl rfl⟩
    unfold shortenDiv
    rw [hshift, div_eq_of_lt hd, if_neg (by simp), pow_zero, Nat.div_one, add_zero]
  | succ fuel ih =>
    intro sft d hd
    unfold shortenDiv
    rw [hshift, hshift]
    by_cases hlong : d < 2 ^ 32
    · refine ⟨0, ?_, by rw [pow_zero, Nat.div_one]; exact hlong, .inl rfl⟩
      rw [div_eq_of_lt hlong, if_neg (by simp), pow_zero, Nat.div_one, add_zero]
    obtain ⟨k, hrun, hlt, hge⟩ := ih (sft + 1) (d / 2 ^ 1) (by
      rw [← add_assoc, pow_succ] at hd
      omega)
    have hdiv : d / 2 ^ 1 / 2 ^ k = d / 2 ^ (k + 1) := by
      rw [Nat.div_div_eq_div_mul, ← pow_add, add_comm]
    rw [hdiv] at hrun hlt hge
    refine ⟨k + 1, ?_, hlt, .inr ⟨?_, by omega⟩⟩
    · rw [if_pos (by omega), hrun, add_assoc, add_comm 1 k]
    · rcases hge with rfl | hge
      · omega
      · exact hge.1

/-- `ktime_divns`: the quotient, or one more. -/
lemma ktimeDivns_spec {c : Config} {fuel x d : Nat} (hfuel : 30 ≤ fuel)
    (hx : x < 2 ^ 61) (hfit : Fits c x) (hd : 1 ≤ d) (hd' : d < 2 ^ 61) :
    ∃ q, ktimeDivns fuel c (ktime c x) d = some q ∧ x / d ≤ q ∧ q ≤ x / d + 1 := by
  have hns := ktimeToNs_eq hfit
  have hshort : ∃ q, ((shortenDiv fuel 0 d).bind fun r =>
      if unsigned 32 r.2 = 0 then none
      else some ((unsigned 64 (ktimeToNs c (ktime c x)) >>> r.1)
        / unsigned 32 r.2)) = some q ∧ x / d ≤ q ∧ q ≤ x / d + 1 := by
    rcases fuel with _ | f
    · omega
    have hpow : d < 2 ^ (32 + f) := lt_of_lt_of_le hd' (Nat.pow_le_pow_right (by omega) (by omega))
    obtain ⟨k, hrun, hlt, hge⟩ := shortenDiv_spec f 0 d hpow
    have hpos : 0 < d / 2 ^ k := by
      rcases hge with rfl | hge
      · omega
      · omega
    have hle : x / 2 ^ k / (d / 2 ^ k) ≤ x / d + 1 := by
      rcases hge with rfl | ⟨hge, hlong⟩
      · rw [pow_zero, Nat.div_one, Nat.div_one]
        omega
      · -- fewer than `2 ^ 29` periods of at least `2 ^ 32`
        have hquot : x / d < 2 ^ 29 := (Nat.div_lt_iff_lt_mul (by omega)).mpr (by omega)
        exact scaled_div_le (Nat.two_pow_pos k) (by omega)
    refine ⟨_, ?_, div_le_scaled_div hpos, hle⟩
    rw [hrun, hns, unsigned_eq (w := 64) (x := x) (by omega)]
    simp only [bind_some, unsigned_eq hlt, zero_add, if_neg (ne_of_gt hpos), shiftRight_eq_div_pow]
  cases c with
  | long64 =>
    have hle : x / d ≤ x := Nat.div_le_self x d
    refine ⟨x / d, ?_, le_rfl, le_succ _⟩
    unfold ktimeDivns
    rw [if_neg (by omega)]
    have hdiv : (ktime .long64 x).tdiv d = ((x / d : Nat) : Int) := Int.ofNat_tdiv x d
    rw [hdiv, unsigned_eq (by omega)]
  | scalar32 | union32 => exact hshort

-- == forward

/-- Now, the interval, and every expiry up to the first after now can be
held. -/
def Representable (c : Config) (e now i : Nat) : Prop :=
  Fits c now ∧ Fits c i ∧ ∀ n, (∀ m, m < n → e + m * i ≤ now) → Fits c (e + n * i)

lemma representable_scalar {c : Config} {e now i : Nat} (hc : c ≠ .union32) (he : e < 2 ^ 61)
    (hnow : now < 2 ^ 61) (hi : i < 2 ^ 61) : Representable c e now i := by
  have hfits : ∀ t, t < 2 ^ 63 → Fits c t := by
    intro t ht
    cases c with
    | union32 => exact absurd rfl hc
    | long64 | scalar32 => exact ht
  refine ⟨hfits now (by omega), hfits i (by omega), fun n hn => ?_⟩
  apply hfits
  cases n with
  | zero => omega
  | succ n =>
    have hlast := hn n (lt_succ_self n)
    rw [succ_mul]
    omega

lemma periods_spec {e now i q : Nat} (hi : 0 < i) (hle : e ≤ now)
    (hlo : (now - e) / i ≤ q) (hhi : q ≤ (now - e) / i + 1) :
    (∀ m, m < q → e + m * i ≤ now) ∧ q * i ≤ now - e + i ∧ now < e + (q + 1) * i := by
  have hdiv : (now - e) / i * i ≤ now - e := div_mul_le_self (now - e) i
  refine ⟨fun m hm => ?_, ?_, ?_⟩
  · have hmul : m * i ≤ (now - e) / i * i := Nat.mul_le_mul_right i (by omega)
    omega
  · have hmul : q * i ≤ ((now - e) / i + 1) * i := Nat.mul_le_mul_right i hhi
    rw [succ_mul] at hmul
    omega
  · have hlt := lt_mul_div_succ (now - e) hi
    have hmul : i * ((now - e) / i + 1) ≤ i * (q + 1) := Nat.mul_le_mul_left i (by omega)
    rw [mul_comm i (q + 1)] at hmul
    omega

/-- `hrtimer_forward` returns the least number of periods that leads past
now, and adds just that many. -/
theorem hrtimerForward_first_after {c : Config} {fuel : Nat} {timer : Timer} {e now i : Nat}
    (hfuel : 30 ≤ fuel) (he : e < 2 ^ 61) (hnow : now < 2 ^ 61) (hi : 1 ≤ i) (hi' : i < 2 ^ 61)
    (hexpires : timer.expires = ktime c e) (hres : timer.resolution ≤ ktime c i)
    (hunion : c = .union32 → Representable c e now i) :
    ∃ n timer', hrtimerForward fuel c timer (ktime c now) (ktime c i) = some (n, timer') ∧
      timer'.expires = ktime c (e + n * i) ∧ now < e + n * i ∧
      ∀ m, m < n → e + m * i ≤ now := by
  obtain ⟨hfnow, hfi, hfit⟩ : Representable c e now i := by
    by_cases hc : c = .union32
    · exact hunion hc
    · exact representable_scalar hc he hnow hi'
  have hfe : Fits c e := by
    have := hfit 0 (fun m hm => absurd hm (Nat.not_lt_zero m))
    rwa [zero_mul, add_zero] at this
  obtain ⟨hsub, hneg⟩ := ktimeSub_eq hfnow hfe
  unfold hrtimerForward
  simp only [hexpires, if_neg (not_lt.mpr hres), pure_def, bind_eq_bind]
  by_cases hlate : now < e
  · rw [if_pos (hneg hlate)]
    exact ⟨0, timer, rfl, by simp [hexpires], by omega, by simp⟩
  have hzero : ktime c 0 = 0 := by cases c <;> rfl
  rw [hsub (by omega), ← hzero, if_neg (by rw [ktime_lt_iff]; omega)]
  by_cases hlong : ktime c (now - e) ≥ ktime c i
  · rw [if_pos hlong, ktimeToNs_eq hfi]
    obtain ⟨q, hq, hlo, hhi⟩ := ktimeDivns_spec hfuel
      (x := now - e) (by omega) (hfnow.mono (sub_le now e)) hi hi'
    obtain ⟨hpast, hmul, hnext⟩ := periods_spec hi (by omega) hlo hhi
    have hself : q ≤ q * i := Nat.le_mul_of_pos_right q hi
    have hincr : unsigned 64 ((i : Int) * (q : Int)) = q * i := by
      rw [← Int.natCast_mul, mul_comm]
      exact unsigned_eq (by omega)
    have hadd : (hrtimerAddExpiresNs c timer (q * i)).expires = ktime c (e + q * i) := by
      show ktimeAddNs c timer.expires (q * i) = _
      rw [hexpires]
      exact ktimeAddNs_eq (hfit q hpast)
    rw [hq, bind_some, hincr, hadd]
    by_cases hdone : ktime c (e + q * i) > ktime c now
    · -- one more than the quotient, which is just enough
      rw [if_pos hdone]
      exact ⟨q, _, rfl, hadd, ktime_lt_iff.mp hdone, hpast⟩
    rw [if_neg hdone]
    have hle : e + q * i ≤ now := by
      by_contra hlt
      exact hdone (ktime_lt_iff.mpr (by omega))
    have hpast' : ∀ m, m < q + 1 → e + m * i ≤ now := by
      intro m hm
      have hmono : m * i ≤ q * i := Nat.mul_le_mul_right i (by omega)
      omega
    have hcount : unsigned 64 ((q : Int) + 1) = q + 1 := unsigned_eq (x := q + 1) (by omega)
    have hfit' := hfit (q + 1) hpast'
    refine ⟨q + 1, _, by rw [hcount], ?_, hnext, hpast'⟩
    show ktimeAddSafe c (hrtimerAddExpiresNs c timer (q * i)).expires (ktime c i) = _
    rw [succ_mul, ← add_assoc] at hfit' ⊢
    rw [hadd]
    exact ktimeAddSafe_eq hfit'
  · rw [if_neg hlong]
    have hlt : now - e < i := ktime_lt_iff.mp (not_le.mp hlong)
    have hpast : ∀ m, m < 1 → e + m * i ≤ now := by
      intro m hm
      obtain rfl : m = 0 := by omega
      omega
    have hfit' := hfit 1 hpast
    refine ⟨1, _, rfl, ?_, by omega, hpast⟩
    show ktimeAddSafe c timer.expires (ktime c i) = _
    rw [one_mul] at hfit' ⊢
    rw [hexpires]
    exact ktimeAddSafe_eq hfit'

/-- An interval of a little more than `2 ^ 32` nanoseconds on a 32-bit
machine, where the division finds one period too many. -/
theorem hrtimerForward_first_after_long :
    ∃ n timer', hrtimerForward 30 .scalar32 ⟨0, 0, 1⟩ (2 ^ 33 : Nat)
        (2 ^ 32 + 1 : Nat) = some (n, timer') ∧
      timer'.expires = (n * (2 ^ 32 + 1) : Nat) ∧
      2 ^ 33 < n * (2 ^ 32 + 1) := by
  have hexpires0 : (⟨0, 0, 1⟩ : Timer).expires = ktime .scalar32 0 := rfl
  have hnow : 2 ^ 33 < 2 ^ 61 := by decide
  have hres : (⟨0, 0, 1⟩ : Timer).resolution ≤ ktime .scalar32 (2 ^ 32 + 1) := by decide
  obtain ⟨n, timer', hrun, hexpires, hlt, -⟩ :=
    hrtimerForward_first_after le_rfl (by omega) hnow (by omega)
      (by omega) hexpires0 hres (fun h => by cases h)
  rw [zero_add] at hexpires hlt
  exact ⟨n, timer', hrun, hexpires, hlt⟩

/-- A timer that is due every five seconds, one second before the last second
32 bits can hold. -/
def lastSecond : Timer := ⟨ktime .union32 2147483646000000000, 0, 1⟩

/-- There the next expiry cannot be held: `ktime_add_safe` leaves the timer
at now, not five seconds after its expiry. -/
theorem lastSecond_not_after :
    ∃ timer', hrtimerForward 30 .union32 lastSecond
        (ktime .union32 2147483647000000000) (ktime .union32 5000000000) = some (1, timer') ∧
      timer'.expires ≠ ktime .union32 2147483651000000000 ∧
      ¬ ktime .union32 2147483647000000000 < timer'.expires :=
  ⟨_, rfl, by decide, by decide⟩

end BoardStack.Hrtimer
