/-
The round trip of mapping pairs, whose numbers are given by their significant bytes.

Three functions have to agree on these: one counts, one writes, one reads. All
is said about the list `significant n`: byte `i` of it is the byte of
`n / 256 ^ i`, and behind its last byte only copies of the sign follow, that
is, `n / 256 ^ (length - 1)` is a signed byte. From the top byte down, the
reader has `n / 256 ^ i` after byte `i`.

`pairs prev runs` are the bytes of the mapping pairs of `runs` behind a run at
lcn `prev`. The size that is computed is their number and a byte for the
terminator, the build writes just them, and a decompression that finds them
adds just `runs` to its runlist. Each of the three is an induction on the
runs, over one lemma about a single pair.
-/
import BoardStack.Ntfs.Runlist
import Mathlib.Algebra.BigOperators.Group.List.Basic
import Mathlib.Tactic.IntervalCases

namespace BoardStack.Ntfs

open Base List Option

section

open Nat Int

variable {m : Mem} {dst dstMax k i : Nat} {n l : Int}

lemma shift_eq (l : Int) : l >>> (8 : Nat) = l / 256 := by
  rw [Int.shiftRight_eq_div_pow]
  rfl

lemma div_pow_succ (l : Int) (i : Nat) : l / 256 ^ (i + 1) = l / 256 / 256 ^ i := by
  rw [Int.pow_succ', ediv_ediv_of_nonneg (by decide)]

lemma shift_mul (l : Int) (i : Nat) : l >>> (8 * i : Nat) = l / 256 ^ i := by
  rw [Int.shiftRight_eq_div_pow, pow_mul]
  norm_cast

lemma byte_toNat (l : Int) : ((byte l).toNat : Int) = l % 256 := by
  unfold byte unsigned
  have hlo := emod_nonneg l (show (256 : Int) ≠ 0 by decide)
  rw [UInt8.toNat_ofNat_of_lt' (by change (l % 256).toNat < 256; omega)]
  exact toNat_of_nonneg hlo

-- == the loop

def loopBytes : Nat → Int → List UInt8
  | 0, _ => []
  | k + 1, l =>
    if l / 256 ≠ 0 ∧ l / 256 ≠ -1 then byte l :: loopBytes k (l / 256)
    else [byte l]

lemma nrLoop_eq (k : Nat) (l : Int) (i : Nat) : nrLoop k l i = i + (loopBytes k l).length := by
  induction k generalizing l i with
  | zero => rfl
  | succ k ih =>
    unfold nrLoop loopBytes
    dsimp only
    rw [shift_eq]
    split_ifs with h
    · rw [ih, length_cons]
      omega
    · rfl

lemma loopBytes_length_pos (l : Int) : 0 < (loopBytes (k + 1) l).length := by
  unfold loopBytes
  split_ifs with h
  · exact succ_pos _
  · exact Nat.one_pos

lemma loopBytes_length_le (k : Nat) (l : Int) : (loopBytes k l).length ≤ k := by
  induction k generalizing l with
  | zero => exact le_rfl
  | succ k ih =>
    unfold loopBytes
    split_ifs with h
    · exact succ_le_succ (ih _)
    · exact succ_le_succ (Nat.zero_le k)

lemma loopBytes_getElem? (h : i < (loopBytes k l).length) :
    (loopBytes k l)[i]? = some (byte (l / 256 ^ i)) := by
  induction k generalizing l i with
  | zero => exact absurd h (Nat.not_lt_zero i)
  | succ k ih =>
    unfold loopBytes at h ⊢
    split_ifs at h ⊢ with hc
    · cases i with
      | zero => simp
      | succ i =>
        rw [List.getElem?_cons_succ, ih (lt_of_succ_lt_succ h), div_pow_succ]
    · obtain rfl : i = 0 := lt_one_iff.mp h
      simp

lemma div_loopBytes_length (hlo : -256 ^ k ≤ l) (hhi : l < 256 ^ k) :
    l / 256 ^ (loopBytes k l).length = 0 ∨ l / 256 ^ (loopBytes k l).length = -1 := by
  induction k generalizing l with
  | zero =>
    change l / 1 = 0 ∨ l / 1 = -1
    omega
  | succ k ih =>
    unfold loopBytes
    split_ifs with hc
    · rw [length_cons, div_pow_succ]
      apply ih
      · omega
      · omega
    · change l / 256 = 0 ∨ l / 256 = -1
      omega

-- == the number

/-- The extra byte, if the sign bit is wrong. -/
def signByte (n : Int) : List UInt8 :=
  let j := signed 8 (n / 256 ^ ((loopBytes 8 n).length - 1))
  if n < 0 ∧ 0 ≤ j then [byte (-1)]
  else if 0 < n ∧ j < 0 then [byte 0]
  else []

def significant (n : Int) : List UInt8 := loopBytes 8 n ++ signByte n

/-- An `s64`. -/
def IsS64 (n : Int) : Prop := -2 ^ 63 ≤ n ∧ n < 2 ^ 63

lemma nr_eq (n : Int) : ntfsGetNrSignificantBytes n = (significant n).length := by
  unfold ntfsGetNrSignificantBytes significant signByte
  dsimp only
  rw [nrLoop_eq, zero_add, shift_mul, length_append]
  split_ifs with h1 h2 h3 <;> first | rfl | omega

lemma significant_length_pos (n : Int) : 0 < (significant n).length := by
  unfold significant
  rw [length_append]
  exact Nat.add_pos_left (loopBytes_length_pos n) _

lemma signByte_length_le (n : Int) : (signByte n).length ≤ 1 := by
  unfold signByte
  dsimp only
  split_ifs <;> simp

lemma significant_length_le (n : Int) : (significant n).length ≤ 9 := by
  unfold significant
  rw [length_append]
  exact Nat.add_le_add (loopBytes_length_le 8 n) (signByte_length_le n)

lemma sign_cases (hn : IsS64 n) : n / 256 ^ (loopBytes 8 n).length = if n < 0 then -1 else 0 := by
  obtain ⟨hlo, hhi⟩ := hn
  have hpos : (0 : Int) < 256 ^ (loopBytes 8 n).length := Int.pow_pos (by decide)
  have hend := @div_loopBytes_length 8 n (by omega) (by omega)
  split_ifs with hneg
  · have hdiv := ediv_neg_of_neg_of_pos hneg hpos
    omega
  · have hdiv := ediv_nonneg (not_lt.mp hneg) hpos.le
    omega

lemma significant_getElem? (hn : IsS64 n) (h : i < (significant n).length) :
    (significant n)[i]? = some (byte (n / 256 ^ i)) := by
  have hsign := sign_cases hn
  unfold significant at h ⊢
  by_cases hi : i < (loopBytes 8 n).length
  · rw [List.getElem?_append_left hi, loopBytes_getElem? hi]
  have hle := signByte_length_le n
  rw [length_append] at h
  obtain rfl : i = (loopBytes 8 n).length := by omega
  rw [List.getElem?_append_right le_rfl, Nat.sub_self, hsign]
  unfold signByte at h ⊢
  dsimp only at h ⊢
  split_ifs at h ⊢ with hneg hpos hneg'
  · rfl
  · omega
  · omega
  · rfl
  · exact absurd h (by simp)
  · exact absurd h (by simp)

lemma signed_eight (hlo : -256 ≤ l) (hhi : l < 256) :
    signed 8 l = if l < -128 then l + 256
      else if l < 128 then l else l - 256 := by
  unfold signed
  rw [bmod_def]
  norm_num
  split_ifs <;> omega

lemma significant_top (hn : IsS64 n) :
    -128 ≤ n / 256 ^ ((significant n).length - 1) ∧
      n / 256 ^ ((significant n).length - 1) < 128 := by
  have hsign := sign_cases hn
  have hpos : 0 < (loopBytes 8 n).length := loopBytes_length_pos n
  obtain ⟨c, hc⟩ : ∃ c, (loopBytes 8 n).length = c + 1 := ⟨(loopBytes 8 n).length - 1, by omega⟩
  have hsplit : n / 256 ^ (c + 1) = n / 256 ^ c / 256 := by
    rw [pow_succ, ediv_ediv_of_nonneg (Int.pow_nonneg (by decide))]
  have hlen : (significant n).length = c + 1 + (signByte n).length := by
    unfold significant
    rw [length_append, hc]
  rw [hlen]
  unfold signByte
  dsimp only
  rw [hc, Nat.add_sub_cancel]
  rw [hc, hsplit] at hsign
  have hx : signed 8 (n / 256 ^ c) = _ :=
    signed_eight (by split_ifs at hsign <;> omega) (by split_ifs at hsign <;> omega)
  split_ifs with hneg hpos'
  · change -128 ≤ n / 256 ^ (c + 1) ∧ n / 256 ^ (c + 1) < 128
    rw [hsplit, hsign, if_pos hneg.1]
    decide
  · change -128 ≤ n / 256 ^ (c + 1) ∧ n / 256 ^ (c + 1) < 128
    rw [hsplit, hsign, if_neg (by omega)]
    decide
  change -128 ≤ n / 256 ^ c ∧ n / 256 ^ c < 128
  rcases Int.lt_trichotomy n 0 with hlt | rfl | hgt
  · have hj : signed 8 (n / 256 ^ c) < 0 := not_le.mp fun hle => hneg ⟨hlt, hle⟩
    rw [if_pos hlt] at hsign
    rw [hx] at hj
    split_ifs at hj <;> omega
  · rw [zero_ediv]
    decide
  · have hj : 0 ≤ signed 8 (n / 256 ^ c) := not_lt.mp fun hl => hpos' ⟨hgt, hl⟩
    rw [if_neg (by omega)] at hsign
    rw [hx] at hj
    split_ifs at hj <;> omega

-- == writing

lemma writeLoop_eq (hfit : dst + (loopBytes k l).length ≤ dstMax + 1) (m : Mem) (i : Nat) :
    writeLoop dstMax k m dst l i = (write m dst (loopBytes k l), some (dst + (loopBytes k l).length,
            i + (loopBytes k l).length)) := by
  induction k generalizing m dst l i with
  | zero =>
    unfold writeLoop loopBytes
    rw [write_nil]
    rfl
  | succ k ih =>
    have hlt : ¬dstMax < dst := by
      have hpos := @loopBytes_length_pos k l
      omega
    unfold writeLoop
    unfold loopBytes at hfit ⊢
    dsimp only
    rw [if_neg hlt, shift_eq]
    split_ifs at hfit ⊢ with hc
    · have happ := write_append m dst [byte l] (loopBytes k (l / 256))
      rw [length_cons] at hfit
      rw [length_singleton] at happ
      rw [ih (by omega), update_eq_write, happ, length_cons]
      congr 3 <;> omega
    · rw [update_eq_write]
      rfl

lemma writeLoop_none (hdst : dst ≤ dstMax + 1) (hfit : dstMax + 1 < dst + (loopBytes k l).length)
    (m : Mem) (i : Nat) : (writeLoop dstMax k m dst l i).2 = none := by
  induction k generalizing m dst l i with
  | zero => exact absurd hfit (not_lt.mpr hdst)
  | succ k ih =>
    unfold writeLoop
    unfold loopBytes at hfit
    dsimp only
    rw [shift_eq]
    by_cases hlt : dstMax < dst
    · rw [if_pos hlt]
    rw [if_neg hlt]
    split_ifs at hfit ⊢ with hc
    · rw [length_cons] at hfit
      exact ih (by omega) (by omega) _ _
    · rw [length_singleton] at hfit
      omega

/-- The bytes are written, where there is room. -/
theorem writeSignificantBytes_eq (hfit : dst + (significant n).length ≤ dstMax + 1) (m : Mem) :
    ntfsWriteSignificantBytes m dst dstMax n
      = (write m dst (significant n), some (significant n).length) := by
  unfold significant at hfit ⊢
  rw [length_append] at hfit
  unfold ntfsWriteSignificantBytes
  rw [writeLoop_eq (by omega), elim_some, zero_add, ← write_append, length_append]
  unfold writeSign
  unfold signByte at hfit ⊢
  dsimp only at hfit ⊢
  rw [shift_mul]
  split_ifs at hfit ⊢ with hneg hroom hpos hroom'
  · rw [length_singleton] at hfit
    omega
  · rw [update_eq_write]
    rfl
  · rw [length_singleton] at hfit
    omega
  · rw [update_eq_write]
    rfl
  · rw [write_nil]
    rfl

/-- Where there is no room, the writer says so. -/
lemma writeSignificantBytes_none (hdst : dst ≤ dstMax + 1)
    (hfit : dstMax + 1 < dst + (significant n).length) (m : Mem) :
    (ntfsWriteSignificantBytes m dst dstMax n).2 = none := by
  unfold significant at hfit
  rw [length_append] at hfit
  unfold ntfsWriteSignificantBytes
  dsimp only
  by_cases hloop : dst + (loopBytes 8 n).length ≤ dstMax + 1
  · rw [writeLoop_eq hloop, elim_some, zero_add]
    unfold writeSign
    unfold signByte at hfit
    dsimp only at hfit ⊢
    rw [shift_mul]
    split_ifs at hfit ⊢ with hneg hroom hpos hroom'
    · rfl
    · rw [length_singleton] at hfit
      omega
    · rfl
    · rw [length_singleton] at hfit
      omega
    · rw [length_nil] at hfit
      omega
  · rw [writeLoop_none hdst (by omega), elim_none]

-- == reading

lemma IsS64.div (hn : IsS64 n) (k : Nat) : IsS64 (n / 256 ^ k) := by
  obtain ⟨hlo, hhi⟩ := hn
  have hpos : (0 : Int) < 256 ^ k := Int.pow_pos (by decide)
  constructor
  · rw [Int.le_ediv_iff_mul_le hpos]
    calc (-2 ^ 63 : Int) * 256 ^ k ≤ -2 ^ 63 * 1 := Int.mul_le_mul_of_nonpos_left (by decide) hpos
      _ ≤ n := by omega
  · rw [Int.ediv_lt_iff_lt_mul hpos]
    calc n < 2 ^ 63 * 1 := by omega
      _ ≤ 2 ^ 63 * 256 ^ k := Int.mul_le_mul_of_nonneg_left hpos (by decide)

lemma IsS64.signed_eq (hn : IsS64 n) : signed 64 n = n := Base.signed_eq hn.1 hn.2

lemma xcnLoop_eq (hn : IsS64 n) {buf lo : Nat}
    (hbytes : ∀ i, i < k → m (buf + (lo + 1 + i)) = byte (n / 256 ^ i)) :
    xcnLoop m buf lo (lo + k) (n / 256 ^ k) = n := by
  induction k with
  | zero =>
    rw [Int.pow_zero, ediv_one]
    cases lo with
    | zero => rfl
    | succ lo =>
      unfold xcnLoop
      rw [if_neg (lt_irrefl _)]
  | succ k ih =>
    have hdiv : n / 256 ^ (k + 1) = n / 256 ^ k / 256 := by
      rw [pow_succ, ediv_ediv_of_nonneg (Int.pow_nonneg (by decide))]
    have hbyte := byte_toNat (n / 256 ^ k)
    rw [← add_assoc, xcnLoop, if_pos (by omega),
      show lo + k + 1 = lo + 1 + k by omega, hbytes k (by omega), hbyte, hdiv,
      show n / 256 ^ k / 256 * 2 ^ 8 + n / 256 ^ k % 256 = n / 256 ^ k by
        omega, (hn.div k).signed_eq]
    exact ih fun i hi => hbytes i (by omega)

/-- The number is read back. -/
theorem readXcn_eq (hn : IsS64 n) {buf lo b : Nat} (hb : b = lo + (significant n).length)
    (hbytes : ∀ i x, (significant n)[i]? = some x → m (buf + (lo + 1 + i)) = x) :
    readXcn m buf lo b = n := by
  have hpos := significant_length_pos n
  obtain ⟨k, hk⟩ : ∃ k, (significant n).length = k + 1 := ⟨(significant n).length - 1, by omega⟩
  have htop := significant_top hn
  rw [hk, Nat.add_sub_cancel] at htop
  have hat : ∀ i, i < k + 1 → m (buf + (lo + 1 + i)) = byte (n / 256 ^ i) := fun i hi =>
    hbytes i _ (significant_getElem? hn (by omega))
  have hbyte := byte_toNat (n / 256 ^ k)
  unfold readXcn
  rw [hb, hk, show lo + (k + 1) = lo + 1 + k by omega, hat k (by omega), hbyte,
    show lo + 1 + k - 1 = lo + k by omega, show signed 8 (n / 256 ^ k % 256) = n / 256 ^ k by
      unfold signed
      rw [bmod_def]
      norm_num
      split_ifs <;> omega]
  exact xcnLoop_eq hn fun i hi => hat i (by omega)

end

variable {vol : Volume} {m : Mem} {dst dstMax : Nat} {length prev vcn : Int}
  {lcn : Option Int} {r : RunlistElement} {runs : List RunlistElement}
variable {attr : AttrRecord} {d : Decoder} {a b : Nat} {t : RunlistElement}

-- == one pair

def header (lenLen lcnLen : Nat) : UInt8 := UInt8.ofNat (lcnLen <<< 4 ||| lenLen)

def pairBytes (length : Int) (lcn : Option Int) : List UInt8 :=
  header (significant length).length (lcn.elim [] significant).length ::
    (significant length ++ lcn.elim [] significant)

lemma pairBytes_length (length : Int) (lcn : Option Int) :
    (pairBytes length lcn).length
      = (significant length).length + (lcn.elim [] significant).length + 1 := by
  unfold pairBytes
  rw [length_cons, length_append]

lemma writePair_eq (hfit : dst + (pairBytes length lcn).length ≤ dstMax) (m : Mem) :
    writePair m dst dstMax length lcn
      = (write m dst (pairBytes length lcn), some (dst + (pairBytes length lcn).length)) := by
  rw [pairBytes_length] at hfit ⊢
  unfold writePair pairBytes
  rw [writeSignificantBytes_eq (by omega), elim_some]
  cases lcn with
  | none =>
    rw [elim_none, elim_none, elim_some,
      if_neg (by rw [elim_none] at hfit; omega), update_write_front, append_nil]
    rfl
  | some n =>
    rw [elim_some] at hfit
    rw [elim_some, elim_some, writeSignificantBytes_eq (by omega), elim_some,
      if_neg (by omega), write_append, update_write_front]
    congr 2
    omega

lemma writePair_none (hdst : dst ≤ dstMax)
    (hfit : dstMax < dst + (pairBytes length lcn).length) (m : Mem) :
    (writePair m dst dstMax length lcn).2 = none := by
  rw [pairBytes_length] at hfit
  unfold writePair
  dsimp only
  by_cases hlen : dst + 1 + (significant length).length ≤ dstMax + 1
  · rw [writeSignificantBytes_eq hlen, elim_some]
    cases lcn with
    | none =>
      rw [elim_none] at hfit
      rw [elim_none, elim_some, if_pos (by rw [length_nil] at hfit; omega)]
    | some n =>
      rw [elim_some] at hfit
      rw [elim_some]
      by_cases hlcn : dst + 1 + (significant length).length + (significant n).length ≤ dstMax + 1
      · rw [writeSignificantBytes_eq hlcn, elim_some, if_pos (by omega)]
      · rw [writeSignificantBytes_none hlen (by omega), elim_none]
  · rw [writeSignificantBytes_none (by omega) (by omega), elim_none]

-- == the build

/-- Runs that are contiguous from `vcn` on, each a hole or mapped. -/
def Mapped : Int → List RunlistElement → Prop
  | _, [] => True
  | vcn, r :: rest =>
    r.vcn = vcn ∧ 0 < r.length ∧ (r.lcn = lcnHole ∨ 0 ≤ r.lcn ∧ r.lcn < 2 ^ 63) ∧
      Mapped (vcn + r.length) rest

instance decidableMapped : (vcn : Int) → (runs : List RunlistElement) → Decidable (Mapped vcn runs)
  | _, [] => isTrue trivial
  | vcn, r :: rest =>
    have := decidableMapped (vcn + r.length) rest
    inferInstanceAs (Decidable (_ ∧ _ ∧ _ ∧ _))

def clusters (runs : List RunlistElement) : Int := (runs.map (·.length)).sum

def terminated (runs : List RunlistElement) : List RunlistElement :=
  runs ++ [⟨clusters runs, lcnEnoent, 0⟩]

def change (prev : Int) (r : RunlistElement) : Option Int :=
  if 0 ≤ r.lcn then some (r.lcn - prev) else none

def lcnBehind (prev : Int) (r : RunlistElement) : Int :=
  if 0 ≤ r.lcn then r.lcn else prev

def pairs : Int → List RunlistElement → List UInt8
  | _, [] => []
  | prev, r :: rest =>
    pairBytes r.length (change prev r) ++ pairs (lcnBehind prev r) rest

def IsLcn (prev : Int) : Prop := 0 ≤ prev ∧ prev < 2 ^ 63

lemma IsLcn.behind (hprev : IsLcn prev) (hr : r.lcn = lcnHole ∨ 0 ≤ r.lcn ∧ r.lcn < 2 ^ 63) :
    IsLcn (lcnBehind prev r) := by
  unfold lcnBehind
  split_ifs with hlcn
  · rcases hr with h | h
    · rw [h] at hlcn
      exact absurd hlcn (by decide)
    · exact h
  · exact hprev

lemma IsLcn.change (hprev : IsLcn prev)
    (hr : r.lcn = lcnHole ∨ 0 ≤ r.lcn ∧ r.lcn < 2 ^ 63) (h : 0 ≤ r.lcn) :
    IsS64 (r.lcn - prev) := by
  obtain ⟨hlo, hhi⟩ := hprev
  rcases hr with h' | ⟨-, h'⟩
  · rw [h'] at h
    exact absurd h (by decide)
  · constructor <;> omega

lemma stores_iff (hver : 3 ≤ vol.majorVer) : vol.stores r ↔ 0 ≤ r.lcn := by
  unfold Volume.stores
  omega

lemma not_bad (hlen : 0 < r.length) (hr : r.lcn = lcnHole ∨ 0 ≤ r.lcn ∧ r.lcn < 2 ^ 63) :
    ¬(r.length < 0 ∨ r.lcn < lcnHole) := by
  unfold lcnHole at hr ⊢
  omega

lemma capLength_all (r : RunlistElement) (rest : List RunlistElement) :
    capLength (-1) r rest = (r.length, false) :=
  if_neg (by omega)

section

variable (hver : 3 ≤ vol.majorVer)

include hver

lemma sizeRuns_eq (ht : t.length = 0) (rls : Nat) (hprev : IsLcn prev)
    (hmapped : Mapped vcn runs) :
    sizeRuns vol (-1) (runs ++ [t]) prev rls false = .ok (rls + (pairs prev runs).length) := by
  induction runs generalizing prev vcn rls with
  | nil =>
    rw [nil_append, sizeRuns, if_neg (by rw [ht]; omega)]
    rfl
  | cons r rest ih =>
    obtain ⟨-, hlen, hr, hrest⟩ := hmapped
    rw [cons_append, sizeRuns, if_pos ⟨by omega, rfl⟩, if_neg (not_bad hlen hr)]
    rw [capLength_all]
    dsimp only
    have hih := fun rls => ih rls (hprev.behind hr) hrest
    unfold pairs
    rw [length_append, pairBytes_length, nr_eq]
    unfold change lcnBehind at *
    by_cases hlcn : 0 ≤ r.lcn
    · rw [if_pos ((stores_iff hver).mpr hlcn), nr_eq, (hprev.change hr hlcn).signed_eq]
      rw [if_pos hlcn] at hih
      rw [hih, if_pos hlcn, if_pos hlcn, elim_some]
      congr 1
      omega
    rw [if_neg (fun h => hlcn ((stores_iff hver).mp h))]
    rw [if_neg hlcn] at hih
    rw [hih, if_neg hlcn, if_neg hlcn, elim_none]
    congr 1
    rw [length_nil]
    omega

lemma storedChange (hprev : IsLcn prev) (hr : r.lcn = lcnHole ∨ 0 ≤ r.lcn ∧ r.lcn < 2 ^ 63) :
    (if vol.stores r then some (signed 64 (r.lcn - prev)) else none) = change prev r := by
  unfold change
  by_cases hlcn : 0 ≤ r.lcn
  · rw [if_pos ((stores_iff hver).mpr hlcn), if_pos hlcn, (hprev.change hr hlcn).signed_eq]
  · rw [if_neg (fun h => hlcn ((stores_iff hver).mp h)), if_neg hlcn]

lemma storedBehind : (if vol.stores r then r.lcn else prev) = lcnBehind prev r := by
  unfold lcnBehind
  by_cases hlcn : 0 ≤ r.lcn
  · rw [if_pos ((stores_iff hver).mpr hlcn), if_pos hlcn]
  · rw [if_neg (fun h => hlcn ((stores_iff hver).mp h)), if_neg hlcn]

lemma buildRuns_eq (ht : t.length = 0) (hprev : IsLcn prev) (hmapped : Mapped vcn runs)
    (hfit : dst + (pairs prev runs).length ≤ dstMax) (m : Mem) :
    buildRuns vol (-1) dstMax (runs ++ [t]) m dst prev false
      = ⟨write m dst (pairs prev runs ++ [0]), none, some t.vcn⟩ := by
  induction runs generalizing prev vcn m dst with
  | nil =>
    rw [nil_append, buildRuns, if_neg (by rw [ht]; omega)]
    unfold finish pairs
    rw [update_eq_write, nil_append]
  | cons r rest ih =>
    obtain ⟨-, hlen, hr, hrest⟩ := hmapped
    unfold pairs at hfit ⊢
    rw [length_append] at hfit
    rw [cons_append, buildRuns, if_pos ⟨by omega, rfl⟩, if_neg (not_bad hlen hr)]
    rw [capLength_all]
    dsimp only
    rw [storedChange hver hprev hr, storedBehind hver, writePair_eq (by omega), elim_some,
      ih (hprev.behind hr) hrest (by omega), write_append, append_assoc]

lemma buildRuns_enospc (hprev : IsLcn prev) (hmapped : Mapped vcn runs) (hdst : dst ≤ dstMax)
    (hfit : dstMax < dst + (pairs prev runs).length) (m : Mem) :
    (buildRuns vol (-1) dstMax (runs ++ [t]) m dst prev false).err = some .enospc := by
  induction runs generalizing prev vcn m dst with
  | nil => exact absurd hfit (not_lt.mpr hdst)
  | cons r rest ih =>
    obtain ⟨-, hlen, hr, hrest⟩ := hmapped
    unfold pairs at hfit
    rw [length_append] at hfit
    rw [cons_append, buildRuns, if_pos ⟨by omega, rfl⟩, if_neg (not_bad hlen hr)]
    rw [capLength_all]
    dsimp only
    rw [storedChange hver hprev hr, storedBehind hver]
    by_cases hpair : dst + (pairBytes r.length (change prev r)).length ≤ dstMax
    · rw [writePair_eq hpair, elim_some]
      exact ih (hprev.behind hr) hrest hpair (by omega) _
    · rw [writePair_none hdst (by omega), elim_none]
      rfl

end

-- == decompression

lemma header_low (ha : a ≤ 9) (hb : b ≤ 9) : (header a b).toNat &&& 0xf = a := by
  interval_cases a <;> interval_cases b <;> rfl

lemma header_high (ha : a ≤ 9) (hb : b ≤ 9) : (header a b).toNat >>> 4 &&& 0xf = b := by
  interval_cases a <;> interval_cases b <;> rfl

lemma header_stored (ha : a ≤ 9) (hb : b ≤ 9) : (header a b).toNat &&& 0xf0 = 0 ↔ b = 0 := by
  interval_cases a <;> interval_cases b <;> decide

/-- The bytes `bs` are in memory at `a`. -/
def Holds (m : Mem) (a : Nat) (bs : List UInt8) : Prop := ∀ i x, bs[i]? = some x → m (a + i) = x

variable {xs ys : List UInt8}

lemma Holds.left (h : Holds m a (xs ++ ys)) : Holds m a xs := by
  intro i x hx
  have hi := (List.getElem?_eq_some_iff.mp hx).1
  exact h i x (by rw [List.getElem?_append_left hi, hx])

lemma Holds.right (h : Holds m a (xs ++ ys)) : Holds m (a + xs.length) ys := by
  intro i x hx
  rw [add_assoc]
  exact h _ x (by rw [List.getElem?_append_right (Nat.le_add_right _ _),
    Nat.add_sub_cancel_left, hx])

structure Readable (prev : Int) (r : RunlistElement) : Prop where
  length_nonneg : 0 ≤ r.length
  length_s64 : IsS64 r.length
  lcn : r.lcn = lcnHole ∨ 0 ≤ r.lcn ∧ r.lcn < 2 ^ 63
  prev : IsLcn prev

lemma elim_length_le (lcn : Option Int) : (lcn.elim [] significant).length ≤ 9 := by
  cases lcn with
  | none => exact Nat.zero_le 9
  | some n => exact significant_length_le n

section

variable {d : Decoder} {attrEnd : Nat} (hread : Readable prev r)
  (hholds : Holds m d.buf (pairBytes r.length (change prev r)))
  (hend : d.buf + (pairBytes r.length (change prev r)).length < attrEnd)
include hread hholds hend

lemma decodeLength_eq : decodeLength m attrEnd d = .ok r.length := by
  have hhead : m d.buf = header _ _ := hholds 0 _ rfl
  have hpos := significant_length_pos r.length
  have hn : readXcn m d.buf 0 (significant r.length).length = r.length := by
    apply readXcn_eq hread.length_s64 (zero_add _).symm
    intro i x hx
    have hi := (List.getElem?_eq_some_iff.mp hx).1
    refine hholds _ x ?_
    unfold pairBytes
    rw [zero_add, add_comm 1 i, List.getElem?_cons_succ, List.getElem?_append_left hi, hx]
  rw [pairBytes_length] at hend
  unfold decodeLength
  rw [hhead, header_low (significant_length_le _) (elim_length_le _),
    if_neg (by omega), hn, if_neg (not_lt.mpr hread.length_nonneg)]

lemma decodeLcn_eq (hlcn : d.lcn = prev) :
    decodeLcn m attrEnd d = .ok (r.lcn, lcnBehind prev r) := by
  have hhead : m d.buf = header _ _ := hholds 0 _ rfl
  have hstored := header_stored (significant_length_le r.length) (elim_length_le (change prev r))
  rw [pairBytes_length] at hend
  unfold decodeLcn
  dsimp only
  rw [hhead, header_low (significant_length_le _) (elim_length_le _),
    header_high (significant_length_le _) (elim_length_le _)]
  unfold lcnBehind
  by_cases hpos : 0 ≤ r.lcn
  · have hchange : change prev r = some (r.lcn - prev) := if_pos hpos
    have hbytes := significant_length_pos (r.lcn - prev)
    have hn : readXcn m d.buf (significant r.length).length
        ((significant r.length).length + (significant (r.lcn - prev)).length)
        = r.lcn - prev := by
      apply readXcn_eq (hread.prev.change hread.lcn hpos) rfl
      intro i x hx
      refine hholds _ x ?_
      unfold pairBytes
      rw [hchange, elim_some, Nat.add_right_comm, List.getElem?_cons_succ,
        List.getElem?_append_right (Nat.le_add_right _ _), Nat.add_sub_cancel_left, hx]
    rw [hchange, elim_some] at hend hstored ⊢
    have hs64 : IsS64 r.lcn := by
      have hl := hread.lcn
      unfold lcnHole at hl
      constructor <;> omega
    rw [if_neg (fun h => absurd (hstored.mp h) (by omega)), if_neg (by omega),
      hn, hlcn, add_comm, Int.sub_add_cancel, hs64.signed_eq, if_neg (by omega), if_pos hpos]
  · have hchange : change prev r = none := if_neg hpos
    have hhole : r.lcn = lcnHole := hread.lcn.resolve_right fun h => hpos h.1
    rw [hchange, elim_none] at hstored ⊢
    rw [if_pos (hstored.mpr rfl), if_neg hpos, hlcn, hhole]

end

lemma grow_room (d : Decoder) (h : (d.rlpos + 2) * elementSize ≤ d.rlsize) :
    (d.rlpos + 3) * elementSize ≤ d.grow.rlsize := by
  unfold Decoder.grow
  split_ifs with hsmall
  · dsimp only
    unfold elementSize pageSize at *
    omega
  · omega

lemma clusters_nonneg (h : Mapped vcn runs) : 0 ≤ clusters runs := by
  induction runs generalizing vcn with
  | nil => exact le_rfl
  | cons r rest ih =>
    obtain ⟨-, hlen, -, hrest⟩ := h
    have hsum : clusters (r :: rest) = r.length + clusters rest := sum_cons
    have hrec := ih hrest
    omega

lemma header_ne_zero (hpos : 0 < a) (ha : a ≤ 9) (hb : b ≤ 9) : header a b ≠ 0 := by
  intro h
  have hlow := header_low ha hb
  rw [h] at hlow
  exact absurd hlow (Nat.ne_of_lt hpos)

lemma grow_eq (d : Decoder) : d.grow = { d with rlsize := d.grow.rlsize } := by
  unfold Decoder.grow
  split_ifs <;> rfl

/-- A run is read back into the runlist. -/
theorem decodePair_eq {attrEnd : Nat} (hread : Readable prev r)
    (hholds : Holds m d.buf (pairBytes r.length (change prev r)))
    (hend : d.buf + (pairBytes r.length (change prev r)).length < attrEnd)
    (hlcn : d.lcn = prev) (hvcn : d.vcn = r.vcn) (hnext : IsS64 (r.vcn + r.length))
    (hroom : (d.rlpos + 2) * elementSize ≤ d.rlsize) (hpos : d.rlpos + 1 < 2 ^ 16) :
    decodePair m attrEnd d = .ok
      { buf := d.buf + (pairBytes r.length (change prev r)).length
        vcn := r.vcn + r.length
        lcn := lcnBehind prev r
        rl := write d.rl d.rlpos [r]
        rlpos := d.rlpos + 1
        rlsize := d.grow.rlsize } := by
  have hgrown := grow_room d hroom
  have hsame := grow_eq d
  have hhead : m d.buf = header _ _ := hholds 0 _ rfl
  obtain ⟨size, hsize⟩ : ∃ size, size = d.grow.rlsize := ⟨_, rfl⟩
  rw [← hsize] at hgrown hsame ⊢
  unfold decodePair
  rw [hsame]
  dsimp only
  rw [decodeLength_eq (d := { d with rlsize := size }) hread hholds hend]
  rw [decodeLcn_eq (d := { d with rlsize := size }) hread hholds hend hlcn]
  dsimp only [Except.bind]
  unfold Decoder.put
  rw [if_pos (by unfold elementSize at *; dsimp only; omega)]
  dsimp only [Except.map, Decoder.advance]
  rw [hhead, header_low (significant_length_le _) (elim_length_le _),
    header_high (significant_length_le _) (elim_length_le _),
    Nat.mod_eq_of_lt hpos, hvcn, hnext.signed_eq, update_eq_write,
    pairBytes_length, ← add_assoc d.buf, ← add_assoc d.buf]

/-- The runs are read back. -/
theorem decodeLoop_eq {attrEnd k : Nat} (hprev : IsLcn prev)
    (hmapped : Mapped vcn runs) (hvcn0 : 0 ≤ vcn) (htotal : vcn + clusters runs < 2 ^ 62)
    (hholds : Holds m d.buf (pairs prev runs ++ [0]))
    (hend : d.buf + (pairs prev runs).length < attrEnd) (hlcn : d.lcn = prev) (hvcn : d.vcn = vcn)
    (hroom : (d.rlpos + 2) * elementSize ≤ d.rlsize)
    (hpos : d.rlpos + runs.length < 2 ^ 16) (hk : runs.length < k) :
    ∃ d', decodeLoop m attrEnd k d = .ok d' ∧ d'.buf = d.buf + (pairs prev runs).length ∧
      d'.vcn = vcn + clusters runs ∧
      d'.rl = write d.rl d.rlpos runs ∧
      d'.rlpos = d.rlpos + runs.length ∧
      (d'.rlpos + 2) * elementSize ≤ d'.rlsize := by
  induction runs generalizing prev vcn d k with
  | nil =>
    obtain ⟨k, rfl⟩ : ∃ k', k = k' + 1 := ⟨k - 1, by omega⟩
    have hzero : m d.buf = 0 := hholds 0 0 rfl
    refine ⟨d, ?_, rfl, ?_, (write_nil _ _).symm, rfl, hroom⟩
    · unfold decodeLoop
      rw [if_neg (fun h => h.2 hzero)]
    · rw [hvcn]
      exact (add_zero vcn).symm
  | cons r rest ih =>
    obtain ⟨k, rfl⟩ : ∃ k', k = k' + 1 := ⟨k - 1, by omega⟩
    obtain ⟨hrvcn, hlen, hr, hrest⟩ := hmapped
    have hsum : clusters (r :: rest) = r.length + clusters rest := sum_cons
    have hnonneg := clusters_nonneg hrest
    unfold pairs at hholds hend ⊢
    rw [length_append] at hend ⊢
    rw [length_cons] at hpos hk ⊢
    rw [append_assoc] at hholds
    have hread : Readable prev r := ⟨by omega, ⟨by omega, by omega⟩, hr, hprev⟩
    have hhead : m d.buf = header _ _ := hholds.left 0 _ rfl
    have hgo : d.buf < attrEnd ∧ m d.buf ≠ 0 := by
      refine ⟨by omega, ?_⟩
      rw [hhead]
      exact header_ne_zero (significant_length_pos _) (significant_length_le _) (elim_length_le _)
    have hend' : d.buf + (pairBytes r.length (change prev r)).length < attrEnd := by omega
    have hpair := decodePair_eq hread hholds.left hend' hlcn
      (hvcn.trans hrvcn.symm) ⟨by omega, by omega⟩ hroom (by omega)
    obtain ⟨d', hloop, hbuf', hvcn', hrl', hrlpos', hroom'⟩ :=
      ih (k := k) (d := ⟨d.buf + (pairBytes r.length (change prev r)).length,
          r.vcn + r.length, lcnBehind prev r, write d.rl d.rlpos [r], d.rlpos + 1, d.grow.rlsize⟩)
        (hprev.behind hr) hrest (by omega) (by omega) hholds.right
        (by dsimp only; omega) rfl (by dsimp only; omega) (grow_room d hroom)
        (by dsimp only; omega) (by omega)
    refine ⟨d', ?_, ?_, ?_, ?_, ?_, hroom'⟩
    · unfold decodeLoop
      rw [if_pos hgo, hpair]
      exact hloop
    · rw [hbuf']
      dsimp only
      omega
    · omega
    · rw [hrl']
      exact write_append d.rl d.rlpos [r] rest
    · rw [hrlpos']
      dsimp only
      omega

-- == theorem

/-- A record of an attribute with the mapping pairs `bytes` of all its
clusters. -/
structure HoldsPairs (vol : Volume) (attr : AttrRecord) (total : Int)
    (bytes : List UInt8) : Prop where
  lowest : attr.lowestVcn = 0
  highest : attr.highestVcn = total - 1
  allocated : attr.allocatedSize = total * vol.clusterSize
  -- an allocated size is an `s64`
  allocated_lt : attr.allocatedSize < 2 ^ 63
  fits : attr.mappingPairsOffset + bytes.length ≤ attr.length
  bytes : Holds attr.bytes attr.mappingPairsOffset bytes

lemma allocated_round {bits : Nat} {total : Int} (htotal : 0 < total)
    (h : total * 2 ^ bits < 2 ^ 63) : total * 2 ^ bits + 2 ^ bits ≤ 2 ^ 63 := by
  have hpos : (0 : Int) < 2 ^ bits := Int.pow_pos (by decide)
  have hbits : bits ≤ 63 := by
    by_contra hlt
    have hle : (2 : Int) ^ 63 ≤ 2 ^ bits := pow_le_pow_right₀ (by decide) (by omega)
    have hone : 1 * 2 ^ bits ≤ total * 2 ^ bits := Int.mul_le_mul_of_nonneg_right htotal hpos.le
    omega
  have hsplit : (2 : Int) ^ 63 = 2 ^ (63 - bits) * 2 ^ bits := by
    rw [← Int.pow_add]
    congr 1
    omega
  rw [hsplit] at h ⊢
  have hlt : total < 2 ^ (63 - bits) := lt_of_mul_lt_mul_right h hpos.le
  have hle : (total + 1) * 2 ^ bits ≤ 2 ^ (63 - bits) * 2 ^ bits :=
    Int.mul_le_mul_of_nonneg_right hlt hpos.le
  rwa [Int.add_mul, Int.one_mul] at hle

variable {bytes : List UInt8}

lemma maxCluster_eq {total : Int} (htotal : 0 < total) (h : HoldsPairs vol attr total bytes) :
    signed 64 (attr.allocatedSize + vol.clusterSize - 1)
      >>> vol.clusterSizeBits - 1 = total - 1 := by
  have hlt := h.allocated_lt
  rw [h.allocated] at hlt ⊢
  unfold Volume.clusterSize at hlt ⊢
  have hround := allocated_round htotal hlt
  have hpos : (0 : Int) < 2 ^ vol.clusterSizeBits := Int.pow_pos (by decide)
  have hnonneg := Int.mul_pos htotal hpos
  have hs64 : IsS64 (total * 2 ^ vol.clusterSizeBits + 2 ^ vol.clusterSizeBits - 1) := by
    constructor <;> omega
  rw [hs64.signed_eq, Int.shiftRight_eq_div_pow]
  push_cast
  rw [Int.add_sub_assoc, add_comm, Int.add_mul_ediv_right _ _ hpos.ne',
    Int.ediv_eq_zero_of_lt (by omega) (by omega), zero_add]

lemma terminate_eq {rl : Nat → RunlistElement} (htotal : 0 < clusters runs)
    (hlt : clusters runs < 2 ^ 62) (h : HoldsPairs vol attr (clusters runs) bytes)
    (hvcn : d.vcn = clusters runs) (hrl : d.rl = write rl 0 runs) (hrlpos : d.rlpos = runs.length)
    (hroom : (d.rlpos + 2) * elementSize ≤ d.rlsize) :
    terminate vol attr d = .ok (terminated runs) := by
  have hmax := maxCluster_eq htotal h
  have hs64 : IsS64 (clusters runs - 1) := by constructor <;> omega
  have hput : (d.put ⟨d.vcn, lcnEnoent, 0⟩).map (fun d => (List.range (d.rlpos + 1)).map d.rl)
        = .ok (terminated runs) := by
    have hend := update_write_end rl 0 runs ⟨clusters runs, lcnEnoent, 0⟩
    have hall := map_range_write rl (terminated runs)
    rw [zero_add] at hend
    unfold Decoder.put
    rw [if_pos (by unfold elementSize at *; omega)]
    dsimp only [Except.map]
    rw [hvcn, hrl, hrlpos, hend]
    unfold terminated at hall ⊢
    rw [length_append, length_singleton] at hall
    rw [hall]
  unfold terminate
  dsimp only
  rw [hmax, h.highest, hvcn, hs64.signed_eq, if_neg (fun h => h.2 rfl),
    if_pos h.lowest, if_neg (Int.lt_irrefl _), if_neg (Int.lt_irrefl _), ite_self, ← hvcn]
  exact hput

lemma length_le_pairs (prev : Int) (runs : List RunlistElement) :
    runs.length ≤ (pairs prev runs).length := by
  induction runs generalizing prev with
  | nil => exact le_rfl
  | cons r rest ih =>
    have hrest := ih (lcnBehind prev r)
    unfold pairs
    rw [length_append, pairBytes_length, length_cons]
    omega

lemma clusters_pos (hne : runs ≠ []) (h : Mapped vcn runs) : 0 < clusters runs := by
  cases runs with
  | nil => exact absurd rfl hne
  | cons r rest =>
    obtain ⟨-, hlen, -, hrest⟩ := h
    have hsum : clusters (r :: rest) = r.length + clusters rest := sum_cons
    have hnonneg := clusters_nonneg hrest
    omega

lemma pairs_head (hne : runs ≠ []) {rest : List UInt8}
    (h : Holds m a (pairs prev runs ++ rest)) : m a ≠ 0 := by
  cases runs with
  | nil => exact absurd rfl hne
  | cons r runs =>
    have hhead : m a = header _ _ := h 0 _ rfl
    rw [hhead]
    exact header_ne_zero (significant_length_pos _) (significant_length_le _) (elim_length_le _)

/-- The runlist is read back. -/
theorem decompress_eq (hne : runs ≠ []) (hmapped : Mapped 0 runs) (hlt : clusters runs < 2 ^ 62)
    (hcount : runs.length < 65000) (h : HoldsPairs vol attr (clusters runs) (pairs 0 runs ++ [0]))
    (rl : Nat → RunlistElement) :
    ntfsMappingPairsDecompress vol attr rl = .ok (some (terminated runs)) := by
  have hfits := h.fits
  have hbytes := h.bytes
  rw [length_append, length_singleton] at hfits
  have hlen := length_le_pairs 0 runs
  have hlcn : IsLcn 0 := ⟨by decide, by decide⟩
  have hpage : (0 + 2) * elementSize ≤ pageSize := by decide
  have hpos : 0 + runs.length < 2 ^ 16 := by omega
  have hend : attr.mappingPairsOffset + (pairs 0 runs).length < attr.length := by omega
  obtain ⟨d, hloop, hbuf, hvcn, hrl, hrlpos, hroom⟩ :=
    decodeLoop_eq (k := attr.length + 1) (d := ⟨attr.mappingPairsOffset, 0, 0, rl, 0, pageSize⟩)
      hlcn hmapped le_rfl (by omega) hbytes hend rfl rfl hpage hpos
      (by omega)
  rw [zero_add] at hvcn
  rw [zero_add] at hrlpos
  have hterm := terminate_eq (clusters_pos hne hmapped) hlt h hvcn hrl hrlpos hroom
  unfold ntfsMappingPairsDecompress
  dsimp only
  rw [if_neg (by omega), if_neg (fun h => pairs_head hne hbytes h.2), h.lowest,
    if_neg (fun h => h rfl)]
  dsimp only [Except.bind]
  rw [hloop]
  dsimp only [Except.bind]
  rw [if_neg (by rw [hbuf]; dsimp only; omega), hterm]
  rfl

-- == the whole list

lemma skipTo_zero (hne : runs ≠ []) (hmapped : Mapped 0 runs) (ht : t.vcn = clusters runs) :
    skipTo 0 (runs ++ [t]) = runs ++ [t] := by
  cases runs with
  | nil => exact absurd rfl hne
  | cons r rest =>
    obtain ⟨-, hlen, -, hrest⟩ := hmapped
    have hnext : 0 < nextVcn (rest ++ [t]) := by
      cases rest with
      | nil =>
        change 0 < t.vcn
        rw [ht]
        change 0 < r.length + 0
        omega
      | cons r' rest' =>
        obtain ⟨hvcn, -⟩ := hrest
        change 0 < r'.vcn
        omega
    rw [cons_append, skipTo, if_neg (by omega)]

lemma size_eq (hver : 3 ≤ vol.majorVer) (hne : runs ≠ []) (hmapped : Mapped 0 runs) :
    ntfsGetSizeForMappingPairs vol (some (terminated runs)) 0 (-1)
      = .ok (pairs 0 runs ++ [0]).length := by
  have hskip := skipTo_zero hne hmapped (t := ⟨clusters runs, lcnEnoent, 0⟩) rfl
  have hlcn : IsLcn 0 := ⟨by decide, by decide⟩
  have hsize := sizeRuns_eq hver (t := ⟨clusters runs, lcnEnoent, 0⟩) rfl 1 hlcn hmapped
  unfold ntfsGetSizeForMappingPairs terminated
  rw [if_neg (by decide)]
  dsimp only
  rw [hskip]
  cases runs with
  | nil => exact absurd rfl hne
  | cons r rest =>
    have hvcn := hmapped.1
    dsimp only [cons_append] at hsize ⊢
    rw [if_neg (by omega), if_neg (by omega), hsize, length_append, length_singleton, add_comm]

lemma build_unfold (hne : runs ≠ []) (hmapped : Mapped 0 runs) {len : Nat}
    (hlen : 1 ≤ len) (m : Mem) (dst : Nat) :
    ntfsMappingPairsBuild vol m dst len (some (terminated runs)) 0 (-1)
      = buildRuns vol (-1) (dst + len - 1) (terminated runs) m dst 0 false := by
  have hskip := skipTo_zero hne hmapped (t := ⟨clusters runs, lcnEnoent, 0⟩) rfl
  have hrange : ¬badRange 0 (-1) := by decide
  unfold ntfsMappingPairsBuild terminated
  rw [if_neg (fun h => h.elim hrange fun h => absurd h (by omega))]
  dsimp only
  rw [hskip]
  cases runs with
  | nil => exact absurd rfl hne
  | cons r rest =>
    have hvcn := hmapped.1
    dsimp only [cons_append]
    rw [if_neg (by omega), if_neg (by omega)]

/-- Mapping pairs round trip. The size that is computed is the number of
bytes that the build fills a buffer of that size with, whatever was in it; a
smaller buffer is too small; and what was built is decompressed to the same
runlist. -/
theorem mappingPairs_roundTrip (hver : 3 ≤ vol.majorVer) (hne : runs ≠ [])
    (hmapped : Mapped 0 runs) (hlt : clusters runs < 2 ^ 62) (hcount : runs.length < 65000) :
    ∃ bytes : List UInt8, ntfsGetSizeForMappingPairs vol (some (terminated runs)) 0 (-1)
        = .ok bytes.length ∧
      (∀ m dst, ntfsMappingPairsBuild vol m dst bytes.length (some (terminated runs))
          0 (-1) = ⟨write m dst bytes, none, some (clusters runs)⟩) ∧
      (∀ attr rl, HoldsPairs vol attr (clusters runs) bytes →
        ntfsMappingPairsDecompress vol attr rl = .ok (some (terminated runs))) ∧
      ∀ m dst len, 1 ≤ len → len < bytes.length →
        (ntfsMappingPairsBuild vol m dst len (some (terminated runs))
          0 (-1)).err = some .enospc := by
  have hlcn : IsLcn 0 := ⟨by decide, by decide⟩
  have hlen : (pairs 0 runs ++ [0]).length = (pairs 0 runs).length + 1 := by
    rw [length_append, length_singleton]
  refine ⟨pairs 0 runs ++ [0], size_eq hver hne hmapped, ?_, ?_, ?_⟩
  · intro m dst
    rw [build_unfold hne hmapped (by omega)]
    exact buildRuns_eq hver rfl hlcn hmapped (by omega) m
  · intro attr rl hattr
    exact decompress_eq hne hmapped hlt hcount hattr rl
  · intro m dst len hone hsmall
    rw [build_unfold hne hmapped hone]
    exact buildRuns_enospc hver hlcn hmapped (by omega) (by omega) m

def sparse : List RunlistElement := [⟨0, 5, 3⟩, ⟨3, lcnHole, 2⟩, ⟨5, 2, 300⟩]

theorem sparse_roundTrip :
    ∃ bytes : List UInt8, ntfsGetSizeForMappingPairs ⟨3, 12⟩ (some (terminated sparse)) 0 (-1)
        = .ok bytes.length ∧
      (∀ m dst, ntfsMappingPairsBuild ⟨3, 12⟩ m dst bytes.length (some (terminated sparse)) 0 (-1)
          = ⟨write m dst bytes, none, some 305⟩) ∧
      (∀ attr rl, HoldsPairs ⟨3, 12⟩ attr 305 bytes → ntfsMappingPairsDecompress ⟨3, 12⟩ attr rl
          = .ok (some (terminated sparse))) ∧
      ∀ m dst len, 1 ≤ len → len < bytes.length →
        (ntfsMappingPairsBuild ⟨3, 12⟩ m dst len (some (terminated sparse))
          0 (-1)).err = some .enospc :=
  mappingPairs_roundTrip (by decide) (by decide) (by decide) (by decide) (by decide)

/-- A buffer of no bytes is smaller than the four that a run takes, but the
build does not return on it. -/
theorem build_empty_buffer :
    ntfsGetSizeForMappingPairs ⟨3, 12⟩ (some (terminated [⟨0, 5, 3⟩])) 0 (-1) = .ok 4 ∧
    (ntfsMappingPairsBuild ⟨3, 12⟩ (fun _ => 0) 0 0
      (some (terminated [⟨0, 5, 3⟩])) 0 (-1)).err = some .bug := by
  decide

end BoardStack.Ntfs
