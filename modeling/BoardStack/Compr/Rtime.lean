/-
The "rtime" compressor of JFFS2: fs/jffs2/compr_rtime.c.

The stream is a sequence of pairs, a byte and the length of a run that
repeats what stood behind the last occurrence of that byte. Both directions
keep the same table of last occurrences, in `short`s, so that decompression
retraces compression pair by pair: `Mirrors` relates a state of one to a state
of the other, and says in addition that the pairs still to come are in the
buffer.

Buffers are functions of an index that may be negative, as an entry of the
table is once an offset does not fit a `short`.

The only test of `jffs2_rtime_decompress` is made before a pair, so that a run may
end behind `destlen`, and `srclen` is not read at all. Everything stays inside just if
the input begins with pairs that fill the output exactly (`accesses_inside_iff`); so
it does for what was compressed (`compressed_accesses_inside`).
-/
import BoardStack.Base.CInt
import BoardStack.Base.Run

namespace BoardStack.Compr.Rtime

open Base Function Nat Int

/-- What stands in front of, in and behind a buffer. -/
abbrev Buffer : Type := Int → UInt8

-- == compression

/-- The variables of `jffs2_rtime_compress`. -/
structure Compress where
  positions : UInt8 → Int
  pos : Nat
  outpos : Nat
  cpageOut : Buffer

/-- The inner loop, which ends at a run of 255: the length of the run. -/
def runLength (dataIn : Buffer) (sourcelen : Nat) : Nat → Int → Nat → Nat
  | 0, _, _ => 0
  | left + 1, backpos, pos =>
    if backpos < pos && pos < sourcelen && dataIn pos = dataIn backpos then
      runLength dataIn sourcelen left (backpos + 1) (pos + 1) + 1
    else 0

def compressBody (dataIn : Buffer) (sourcelen : Nat) (s : Compress) :
    Compress :=
  let value := dataIn s.pos
  let pos := s.pos + 1
  let runlen := runLength dataIn sourcelen 255 (s.positions value) pos
  { positions := update s.positions value (signed 16 pos)
    pos := pos + runlen
    outpos := s.outpos + 2
    cpageOut := update (update s.cpageOut (s.outpos : Int) value)
      ((s.outpos : Int) + 1) (UInt8.ofNat runlen) }

/-- `pos < (*sourcelen) && outpos <= (*dstlen)-2`. -/
def compressCond (sourcelen : Nat) (dstlen : BitVec 32) (s : Compress) : Bool :=
  s.pos < sourcelen && s.outpos ≤ (dstlen - 2).toNat

/-- All the pairs: `pos` grows with each. -/
def compressLoop (dataIn cpageOut : Buffer) (sourcelen : Nat) (dstlen : BitVec 32) : Compress :=
  loop (compressCond sourcelen dstlen) (compressBody dataIn sourcelen)
    sourcelen ⟨fun _ => 0, 0, 0, cpageOut⟩

/-- `jffs2_rtime_compress`: the new `sourcelen` and `dstlen`, or none for -1,
and the output. -/
def rtimeCompress (dataIn cpageOut : Buffer) (sourcelen : Nat)
    (dstlen : BitVec 32) : Option (Nat × Nat) × Buffer :=
  let s := compressLoop dataIn cpageOut sourcelen dstlen
  (if s.outpos ≥ s.pos then none else some (s.pos, s.outpos), s.cpageOut)

-- == decompression

/-- The variables of `jffs2_rtime_decompress`. -/
structure Decompress where
  positions : UInt8 → Int
  pos : Nat
  outpos : Nat
  cpageOut : Buffer

/-- `while(repeat) cpage_out[outpos++] = cpage_out[backoffs++]`. -/
def copyBytes : Nat → Buffer → Int → Int → Buffer
  | 0, out, _, _ => out
  | rep + 1, out, outpos, backoffs =>
    copyBytes rep (update out outpos (out backoffs)) (outpos + 1) (backoffs + 1)

/-- `memcpy(&cpage_out[outpos],&cpage_out[backoffs],repeat)`. -/
def copyBlock (rep : Nat) (out : Buffer) (outpos backoffs : Int) : Buffer :=
  fun i =>
    if outpos ≤ i && i < outpos + rep then out (backoffs + (i - outpos))
    else out i

def copyRun (rep : Nat) (out : Buffer) (outpos backoffs : Int) : Buffer :=
  if rep ≠ 0 then
    if backoffs + rep ≥ outpos then copyBytes rep out outpos backoffs
    else copyBlock rep out outpos backoffs
  else out

def decompressBody (dataIn : Buffer) (s : Decompress) : Decompress :=
  let value := dataIn s.pos
  let out := update s.cpageOut (s.outpos : Int) value
  let outpos := s.outpos + 1
  let rep := (dataIn ((s.pos : Int) + 1)).toNat
  { positions := update s.positions value (signed 16 outpos)
    pos := s.pos + 2
    outpos := outpos + rep
    cpageOut := copyRun rep out outpos (s.positions value) }

/-- `jffs2_rtime_decompress`: its variables at the end; `outpos` grows with
each pair. -/
def rtimeDecompress (dataIn cpageOut : Buffer) (destlen : Nat) : Decompress :=
  loop (fun s => s.outpos < destlen) (decompressBody dataIn) destlen ⟨fun _ => 0, 0, 0, cpageOut⟩

-- == runs

section

variable {dataIn out : Buffer} {sourcelen : Nat}

lemma runLength_le (left : Nat) (backpos : Int) (pos : Nat) :
    runLength dataIn sourcelen left backpos pos ≤ left := by
  induction left generalizing backpos pos with
  | zero => exact le_rfl
  | succ left ih =>
    rw [runLength]
    split
    · exact succ_le_succ (ih (backpos + 1) (pos + 1))
    · exact Nat.zero_le _

lemma runLength_inside {left : Nat} {backpos : Int} {pos : Nat} (hpos : pos ≤ sourcelen) :
    pos + runLength dataIn sourcelen left backpos pos ≤ sourcelen := by
  induction left generalizing backpos pos with
  | zero => exact hpos
  | succ left ih =>
    rw [runLength]
    split
    · rename_i hcond
      rw [Bool.and_eq_true, Bool.and_eq_true, decide_eq_true_eq, decide_eq_true_eq] at hcond
      have hrest : pos + 1 + runLength dataIn sourcelen left (backpos + 1)
          (pos + 1) ≤ sourcelen := ih hcond.1.2
      omega
    · exact hpos

lemma runLength_repeats {left : Nat} {backpos : Int} {pos i : Nat}
    (hi : i < runLength dataIn sourcelen left backpos pos) :
    dataIn (pos + i : Nat) = dataIn (backpos + i) := by
  induction left generalizing backpos pos i with
  | zero => exact absurd hi (Nat.not_lt_zero i)
  | succ left ih =>
    rw [runLength] at hi
    split at hi
    · rename_i hcond
      rw [Bool.and_eq_true, decide_eq_true_eq] at hcond
      cases i with
      | zero =>
        rw [add_zero, Int.natCast_zero, add_zero]
        exact hcond.2
      | succ i =>
        have hrest := ih (lt_of_succ_lt_succ hi)
        rw [show pos + (i + 1) = pos + 1 + i by omega, hrest]
        congr 1
        omega
    · exact absurd hi (Nat.not_lt_zero i)

variable {rep pos : Nat} {backoffs : Int} (hlo : 0 ≤ backoffs) (hhi : backoffs < pos)
  (hout : ∀ i : Nat, i < pos → out i = dataIn i)
  (hrun : ∀ i : Nat, i < rep → dataIn (pos + i : Nat) = dataIn (backoffs + i))
  (i : Nat) (hi : i < pos + rep)
include hlo hhi hout hrun hi

lemma copyBytes_spec : copyBytes rep out pos backoffs i = dataIn i := by
  induction rep generalizing out pos backoffs with
  | zero => exact hout i hi
  | succ rep ih =>
    rw [copyBytes, ← natCast_succ]
    apply ih (by omega) (by push_cast; omega) ?_ ?_ (by omega)
    · intro k hk
      by_cases hkp : k = pos
      · subst hkp
        have hback := hout backoffs.toNat (by omega)
        have hfirst := hrun 0 (succ_pos rep)
        rw [toNat_of_nonneg hlo] at hback
        rw [add_zero, Int.natCast_zero, add_zero] at hfirst
        rw [update_self, hback, hfirst]
      · rw [update_of_ne (by omega)]
        exact hout k (by omega)
    · intro k hk
      have hnext := hrun (k + 1) (by omega)
      rw [show pos + 1 + k = pos + (k + 1) by omega, hnext]
      congr 1
      omega

lemma copyRun_spec : copyRun rep out pos backoffs i = dataIn i := by
  unfold copyRun
  split
  · split
    · exact copyBytes_spec hlo hhi hout hrun i hi
    rename_i hfar
    unfold copyBlock
    by_cases hip : i < pos
    · rw [if_neg (by simp; omega)]
      exact hout i hip
    rw [if_pos (by simp; omega)]
    have hsrc := hout (backoffs + (i - pos)).toNat (by omega)
    have hdst := hrun (i - pos) (by omega)
    rw [toNat_of_nonneg (by omega)] at hsrc
    rw [show pos + (i - pos) = i by omega, ofNat_sub (Nat.le_of_not_lt hip)] at hdst
    rw [hsrc, hdst]
  · rename_i hzero
    have hrep : rep = 0 := Decidable.not_not.mp hzero
    rw [hrep] at hi
    exact hout i hi

end

-- == lossless

section

variable {dataIn : Buffer} {sourcelen : Nat} {dstlen : BitVec 32}

lemma compressBody_lt (s : Compress) (hcond : compressCond sourcelen dstlen s = true) :
    sourcelen - (compressBody dataIn sourcelen s).pos < sourcelen - s.pos := by
  unfold compressCond at hcond
  rw [Bool.and_eq_true, decide_eq_true_eq] at hcond
  show sourcelen - (s.pos + 1 + _) < _
  omega

lemma decompressBody_lt {destlen : Nat} (s : Decompress)
    (hcond : decide (s.outpos < destlen) = true) :
    destlen - (decompressBody dataIn s).outpos < destlen - s.outpos := by
  rw [decide_eq_true_eq] at hcond
  show destlen - (s.outpos + 1 + _) < _
  omega

lemma compress_keeps (dataIn : Buffer) (sourcelen : Nat)
    (dstlen : BitVec 32) (n : Nat) (s : Compress) :
    s.pos ≤ (loop (compressCond sourcelen dstlen) (compressBody dataIn sourcelen) n s).pos ∧
      ∀ i : Int, i < s.outpos →
        (loop (compressCond sourcelen dstlen) (compressBody dataIn sourcelen)
          n s).cpageOut i = s.cpageOut i := by
  refine (loop_invariant (fun s' : Compress => s.outpos ≤ s'.outpos ∧
    s.pos ≤ s'.pos ∧ ∀ i : Int, i < s.outpos → s'.cpageOut i = s.cpageOut i)
    ?_ ⟨le_rfl, le_rfl, fun _ _ => rfl⟩).2
  intro s' ⟨hout, hpos, hkept⟩ _
  refine ⟨le_add_right_of_le hout, ?_, fun i hi => ?_⟩
  · show s.pos ≤ s'.pos + 1 + _
    omega
  · show update (update s'.cpageOut _ _) _ _ i = _
    rw [update_of_ne (by omega), update_of_ne (by omega)]
    exact hkept i hi

lemma compress_outpos_le (hlimit : 2 ≤ dstlen.toNat) (n : Nat)
    {s : Compress} (hs : s.outpos ≤ dstlen.toNat) :
    (loop (compressCond sourcelen dstlen) (compressBody dataIn sourcelen)
      n s).outpos ≤ dstlen.toNat := by
  apply loop_invariant (fun s : Compress => s.outpos ≤ dstlen.toNat) ?_ hs
  intro s _ hcond
  have hsub : (dstlen - 2).toNat = dstlen.toNat - 2 :=
    BitVec.toNat_sub_of_le (BitVec.le_def.mpr hlimit)
  unfold compressCond at hcond
  rw [Bool.and_eq_true, decide_eq_true_eq, decide_eq_true_eq, hsub] at hcond
  show s.outpos + 2 ≤ _
  omega

/-- A state of decompression that has read the pairs a state of compression
has written, with the rest of the pairs, up to those of `fin`, ahead. -/
structure Mirrors (dataIn : Buffer) (sourcelen : Nat) (dstlen : BitVec 32)
    (fin s : Compress) (t : Decompress) : Prop where
  ahead : ∃ n, loop (compressCond sourcelen dstlen) (compressBody dataIn sourcelen) n s = fin
  positions : t.positions = s.positions
  pos : t.pos = s.outpos
  outpos : t.outpos = s.pos
  out : ∀ i : Nat, i < s.pos → t.cpageOut i = dataIn i
  inside : s.pos ≤ sourcelen
  known : ∀ v, 0 ≤ s.positions v ∧ s.positions v ≤ s.pos

variable {fin s : Compress} {t : Decompress}

def runlenAt (dataIn : Buffer) (sourcelen : Nat) (s : Compress) : Nat :=
  runLength dataIn sourcelen 255 (s.positions (dataIn s.pos)) (s.pos + 1)

section

variable (h : Mirrors dataIn sourcelen dstlen fin s t)
    (hfin : compressCond sourcelen dstlen fin = false)
    (hcond : compressCond sourcelen dstlen s = true)

include h hfin

include hcond in
lemma Mirrors.ahead_body :
    ∃ n, loop (compressCond sourcelen dstlen) (compressBody dataIn sourcelen) n
      (compressBody dataIn sourcelen s) = fin := by
  obtain ⟨n, hahead⟩ := h.ahead
  cases n with
  | zero =>
    rw [← hahead] at hfin
    exact absurd (hcond.symm.trans hfin) (by decide)
  | succ n => exact ⟨n, (loop_succ hcond).symm.trans hahead⟩

lemma Mirrors.cond : decide (t.outpos < fin.pos) = compressCond sourcelen dstlen s := by
  rw [h.outpos]
  cases hc : compressCond sourcelen dstlen s with
  | false =>
    obtain ⟨n, hahead⟩ := h.ahead
    rw [loop_of_false hc] at hahead
    rw [hahead]
    exact decide_eq_false (lt_irrefl _)
  | true =>
    obtain ⟨n, hahead⟩ := h.ahead_body hfin hc
    have hle := (compress_keeps dataIn sourcelen dstlen n (compressBody dataIn sourcelen s)).1
    rw [hahead] at hle
    apply decide_eq_true
    exact lt_of_lt_of_le (Nat.lt_add_right _ (lt_succ_self _)) hle

include hcond in
lemma Mirrors.pair :
    fin.cpageOut t.pos = dataIn s.pos ∧
      (fin.cpageOut ((t.pos : Int) + 1)).toNat = runlenAt dataIn sourcelen s := by
  obtain ⟨n, hahead⟩ := h.ahead_body hfin hcond
  have hkept := (compress_keeps dataIn sourcelen dstlen n (compressBody dataIn sourcelen s)).2
  rw [hahead] at hkept
  have hout : ((compressBody dataIn sourcelen s).outpos : Int) = (s.outpos : Int) + 2 := rfl
  rw [hout] at hkept
  constructor
  · rw [h.pos, hkept _ (by omega)]
    show update (update _ _ _) _ _ _ = _
    rw [update_of_ne (by omega), update_self]
  rw [h.pos, hkept _ (by omega)]
  have hbyte : (compressBody dataIn sourcelen s).cpageOut
      ((s.outpos : Int) + 1) = UInt8.ofNat (runlenAt dataIn sourcelen s) :=
    update_self _ _ _
  have hle : runlenAt dataIn sourcelen s ≤ 255 := runLength_le 255 _ _
  rw [hbyte]
  exact mod_eq_of_lt (by omega)

include hcond in
lemma Mirrors.body (hsource : sourcelen ≤ 32767) :
    Mirrors dataIn sourcelen dstlen fin (compressBody dataIn sourcelen s)
      (decompressBody fin.cpageOut t) := by
  obtain ⟨hvalue, hrep⟩ := h.pair hfin hcond
  obtain ⟨hback0, hback⟩ := h.known (dataIn s.pos)
  have hpos : s.pos < sourcelen := by
    unfold compressCond at hcond
    rw [Bool.and_eq_true, decide_eq_true_eq] at hcond
    exact hcond.1
  -- an offset of the input fits a short
  have hshort : signed 16 (s.pos + 1 : Nat) = (s.pos + 1 : Nat) := signed_eq (by omega) (by omega)
  unfold decompressBody
  rw [hvalue, hrep, h.positions, h.outpos]
  constructor
  · exact h.ahead_body hfin hcond
  · rfl
  · exact congrArg (· + 2) h.pos
  · rfl
  · apply copyRun_spec hback0 (by omega)
    · intro i hi
      by_cases heq : i = s.pos
      · rw [heq, update_self]
      · rw [update_of_ne (by omega)]
        exact h.out i (by omega)
    · exact fun i hi => runLength_repeats hi
  · exact runLength_inside hpos
  · intro v
    show 0 ≤ update s.positions _ _ v ∧ update s.positions _ _ v ≤ ((s.pos + 1 + _ : Nat) : Int)
    by_cases hv : v = dataIn s.pos
    · rw [hv, update_self, hshort]
      omega
    · rw [update_of_ne hv]
      obtain ⟨h0, h1⟩ := h.known v
      omega

end

/-- rtime is lossless. What was compressed is decompressed to the part of
the input that was taken, from the pairs that were written and no more. -/
theorem rtime_lossless {dataIn cpageOut : Buffer} {sourcelen : Nat} {dstlen : BitVec 32}
    (hsource : sourcelen ≤ 32767) (hlimit : 2 ≤ dstlen.toNat) {s d : Nat} {cpage : Buffer}
    (h : rtimeCompress dataIn cpageOut sourcelen dstlen = (some (s, d), cpage)) (out : Buffer) :
    s ≤ sourcelen ∧ d ≤ dstlen.toNat ∧ (rtimeDecompress cpage out s).pos = d ∧
      (rtimeDecompress cpage out s).outpos = s ∧
      ∀ i : Nat, i < s → (rtimeDecompress cpage out s).cpageOut i = dataIn i := by
  let start : Compress := ⟨fun _ => 0, 0, 0, cpageOut⟩
  let fin := compressLoop dataIn cpageOut sourcelen dstlen
  have hdone : compressCond sourcelen dstlen fin = false :=
    loop_done (fun s : Compress => sourcelen - s.pos) compressBody_lt le_rfl
  have hle : fin.outpos ≤ dstlen.toNat :=
    compress_outpos_le hlimit sourcelen (s := start) (Nat.zero_le _)
  have hresult : s = fin.pos ∧ d = fin.outpos ∧ cpage = fin.cpageOut := by
    obtain ⟨hsome, hpage⟩ := Prod.mk.inj h
    split at hsome
    · cases hsome
    · obtain ⟨hs, hd⟩ := Prod.mk.inj (Option.some.inj hsome)
      exact ⟨hs.symm, hd.symm, hpage.symm⟩
  obtain ⟨rfl, rfl, rfl⟩ := hresult
  have hstart : Mirrors dataIn sourcelen dstlen fin start ⟨fun _ => 0, 0, 0, out⟩ :=
    ⟨⟨sourcelen, rfl⟩, rfl, rfl, rfl, nofun, Nat.zero_le _, fun _ => ⟨le_rfl, le_rfl⟩⟩
  have hend : Mirrors dataIn sourcelen dstlen fin fin (rtimeDecompress fin.cpageOut out fin.pos) :=
    loop_rel (fun s : Compress => sourcelen - s.pos)
      (fun t : Decompress => fin.pos - t.outpos) compressBody_lt
      decompressBody_lt (fun _ _ hR => hR.cond hdone)
      (fun _ _ hR hcond => hR.body hdone hcond hsource)
      le_rfl le_rfl hstart
  exact ⟨hend.inside, hle, hend.pos, hend.outpos, hend.out⟩

/-- Eight times the same byte. -/
theorem rtime_lossless_eight : ∃ cpage,
    rtimeCompress (fun _ => 97) (fun _ => 0) 8 100 = (some (8, 2), cpage) ∧
      (rtimeDecompress cpage (fun _ => 0) 8).pos = 2 ∧
      ∀ i : Nat, i < 8 → (rtimeDecompress cpage (fun _ => 0) 8).cpageOut i = 97 := by
  have hrun : rtimeCompress (fun _ => 97) (fun _ => 0) 8 100
      = (some (8, 2), (rtimeCompress (fun _ => 97) (fun _ => 0) 8 100).2) :=
    Prod.ext (by decide) rfl
  obtain ⟨-, -, hread, -, hout⟩ := rtime_lossless (by decide) (by decide) hrun (fun _ => 0)
  exact ⟨_, hrun, hread, hout⟩

end

open List

-- == accesses

/-- An access to `data_in` or `cpage_out`. -/
inductive Access where
  | readIn (i : Nat)
  | readOut (i : Int)
  | writeOut (i : Nat)

def Access.Inside (srclen destlen : Nat) : Access → Prop
  | .readIn i => i < srclen
  | .readOut i => i < destlen
  | .writeOut i => i < destlen

instance (srclen destlen : Nat) (x : Access) : Decidable (x.Inside srclen destlen) := by
  cases x <;> exact inferInstanceAs (Decidable (_ < _))

def pairAccesses (dataIn : Buffer) (s : Decompress) : List Access :=
  let value := dataIn s.pos
  let rep := (dataIn ((s.pos : Int) + 1)).toNat
  [.readIn s.pos, .writeOut s.outpos, .readIn (s.pos + 1)] ++ (List.range rep).flatMap fun k =>
      [.readOut (s.positions value + k), .writeOut (s.outpos + 1 + k)]

/-- The accesses of at most `n` pairs, in the states that `rtimeDecompress`
goes through. -/
def loopAccesses (dataIn : Buffer) (destlen : Nat) : Nat → Decompress → List Access
  | 0, _ => []
  | n + 1, s =>
    if s.outpos < destlen then
      pairAccesses dataIn s ++ loopAccesses dataIn destlen n (decompressBody dataIn s)
    else []

/-- The accesses of `jffs2_rtime_decompress`. -/
def rtimeAccesses (dataIn cpageOut : Buffer) (destlen : Nat) : List Access :=
  loopAccesses dataIn destlen destlen ⟨fun _ => 0, 0, 0, cpageOut⟩

-- == pairs that fill the output

/-- From an offset on the input has these pairs. -/
def Holds (dataIn : Buffer) : Nat → List (UInt8 × UInt8) → Prop
  | _, [] => True
  | pos, (value, rep) :: pairs =>
    dataIn pos = value ∧ dataIn ((pos : Int) + 1) = rep ∧ Holds dataIn (pos + 2) pairs

def expanded (pairs : List (UInt8 × UInt8)) : Nat := (pairs.map fun p => 1 + p.2.toNat).sum

lemma signed_le (n : Nat) : signed 16 n ≤ n := by
  unfold signed Int.bmod
  dsimp only
  split <;> omega

variable {dataIn : Buffer} {srclen destlen : Nat}

lemma pairAccesses_inside {s : Decompress}
    (hknown : ∀ v, s.positions v ≤ s.outpos) (hpos : s.pos + 2 ≤ srclen)
    (hout : s.outpos + 1 + (dataIn ((s.pos : Int) + 1)).toNat ≤ destlen) :
    ∀ x ∈ pairAccesses dataIn s, x.Inside srclen destlen := by
  intro x hx
  rcases mem_append.mp hx with hx | hx
  · simp only [mem_cons, not_mem_nil, or_false] at hx
    rcases hx with rfl | rfl | rfl
    · show s.pos < srclen
      omega
    · show s.outpos < destlen
      omega
    · show s.pos + 1 < srclen
      omega
  obtain ⟨k, hk, hx⟩ := mem_flatMap.mp hx
  rw [mem_range] at hk
  have hback := hknown (dataIn s.pos)
  simp only [mem_cons, not_mem_nil, or_false] at hx
  rcases hx with rfl | rfl
  · show s.positions (dataIn s.pos) + k < destlen
    omega
  · show s.outpos + 1 + k < destlen
    omega

lemma loopAccesses_inside (pairs : List (UInt8 × UInt8)) :
    ∀ n s, Holds dataIn s.pos pairs → s.pos + 2 * pairs.length ≤ srclen →
      s.outpos + expanded pairs = destlen →
      (∀ v, s.positions v ≤ s.outpos) →
      ∀ x ∈ loopAccesses dataIn destlen n s, x.Inside srclen destlen := by
  induction pairs with
  | nil =>
    intro n s _ _ hsum _ x hx
    have hdone : ¬s.outpos < destlen := by
      rw [← hsum]
      exact lt_irrefl _
    cases n with
    | zero => exact absurd hx not_mem_nil
    | succ n =>
      rw [loopAccesses, if_neg hdone] at hx
      exact absurd hx not_mem_nil
  | cons p pairs ih =>
    obtain ⟨value, rep⟩ := p
    intro n s ⟨hvalue, hrep, hholds⟩ hlen hsum hknown x hx
    rw [length_cons] at hlen
    have hsum' : s.outpos + (1 + rep.toNat + expanded pairs) = destlen := hsum
    cases n with
    | zero => exact absurd hx not_mem_nil
    | succ n =>
      rw [loopAccesses, if_pos (by omega)] at hx
      rcases mem_append.mp hx with hx | hx
      · exact pairAccesses_inside hknown (by omega) (by rw [hrep]; omega) x hx
      refine ih n (decompressBody dataIn s) hholds ?_ ?_ ?_ x hx
      · show s.pos + 2 + 2 * pairs.length ≤ srclen
        omega
      · show s.outpos + 1 + (dataIn ((s.pos : Int) + 1)).toNat + expanded pairs = destlen
        rw [hrep]
        omega
      intro v
      show update s.positions (dataIn s.pos) (signed 16 (s.outpos + 1 : Nat))
        v ≤ ((s.outpos + 1 + _ : Nat) : Int)
      by_cases hv : v = dataIn s.pos
      · have := signed_le (s.outpos + 1)
        rw [hv, update_self]
        omega
      · have := hknown v
        rw [update_of_ne hv]
        omega

/-- A pair whose accesses are inside ends inside, with its run. -/
lemma fits_of_pairAccesses {s : Decompress}
    (h : ∀ x ∈ pairAccesses dataIn s, x.Inside srclen destlen) :
    s.pos + 2 ≤ srclen ∧ s.outpos + 1 + (dataIn ((s.pos : Int) + 1)).toNat ≤ destlen := by
  have hread : s.pos + 1 < srclen := h (.readIn (s.pos + 1)) (by simp [pairAccesses])
  refine ⟨hread, ?_⟩
  cases hrep : (dataIn ((s.pos : Int) + 1)).toNat with
  | zero =>
    exact h (.writeOut s.outpos) (by simp [pairAccesses])
  | succ rep =>
    -- the last byte of the run
    have hlast : s.outpos + 1 + rep < destlen := by
      refine h (.writeOut (s.outpos + 1 + rep)) (mem_append_right _ (mem_flatMap.mpr ⟨rep, ?_, ?_⟩))
      · rw [hrep]
        exact mem_range.mpr (lt_succ_self rep)
      · simp
    omega

/-- The pairs that were read fill the output, if all accesses are inside. -/
lemma exists_pairs_of_inside (n : Nat) {s : Decompress} (hpos : s.pos ≤ srclen)
    (hout : s.outpos ≤ destlen) (hfuel : destlen ≤ s.outpos + n)
    (h : ∀ x ∈ loopAccesses dataIn destlen n s, x.Inside srclen destlen) :
    ∃ pairs, Holds dataIn s.pos pairs ∧ s.pos + 2 * pairs.length ≤ srclen ∧
      s.outpos + expanded pairs = destlen := by
  induction n generalizing s with
  | zero => exact ⟨[], trivial, hpos, le_antisymm hout hfuel⟩
  | succ n ih =>
    by_cases hlt : s.outpos < destlen
    · rw [loopAccesses, if_pos hlt, forall_mem_append] at h
      obtain ⟨hread, hwrite⟩ := fits_of_pairAccesses h.1
      obtain ⟨pairs, hholds, hlen, hsum⟩ := ih (s := decompressBody dataIn s) hread hwrite
        (by dsimp only [decompressBody]; omega) h.2
      refine ⟨(dataIn s.pos, dataIn ((s.pos : Int) + 1)) :: pairs, ⟨rfl, rfl, hholds⟩, ?_, ?_⟩
      · dsimp only [decompressBody] at hlen
        rw [length_cons]
        omega
      · rw [← hsum]
        simp [decompressBody, expanded]
        omega
    · exact ⟨[], trivial, hpos, le_antisymm hout (not_lt.mp hlt)⟩

/-- Decompression stays in bounds if and only if the input begins with pairs that
fill the output exactly. -/
theorem accesses_inside_iff (dataIn cpageOut : Buffer) (srclen destlen : Nat) :
    (∀ x ∈ rtimeAccesses dataIn cpageOut destlen, x.Inside srclen destlen) ↔
      ∃ pairs, Holds dataIn 0 pairs ∧ 2 * pairs.length ≤ srclen ∧ expanded pairs = destlen := by
  constructor
  · intro h
    obtain ⟨pairs, hholds, hlen, hsum⟩ := exists_pairs_of_inside destlen (Nat.zero_le _)
      (Nat.zero_le _) (Nat.le_add_left _ _) h
    exact ⟨pairs, hholds, (Nat.zero_add _).symm.trans_le hlen, (Nat.zero_add _).symm.trans hsum⟩
  · rintro ⟨pairs, hholds, hlen, hsum⟩
    refine loopAccesses_inside pairs destlen _ hholds ?_ ?_ ?_
    · show 0 + 2 * pairs.length ≤ srclen
      omega
    · show 0 + expanded pairs = destlen
      omega
    · exact fun _ => le_rfl

/-- One byte and its run of three fill four bytes. -/
theorem run_of_three_inside :
    rtimeAccesses (fun _ => 3) (fun _ => 0) 4 ≠ [] ∧
      ∀ x ∈ rtimeAccesses (fun _ => 3) (fun _ => 0) 4, x.Inside 2 4 :=
  ⟨by decide, (accesses_inside_iff _ _ 2 4).mpr
    ⟨[(3, 3)], ⟨rfl, rfl, trivial⟩, by decide, by decide⟩⟩

/-- The same pair for two bytes of output writes behind them; and with no input
at all a pair is read. -/
theorem run_of_three_outside :
    (∃ x ∈ rtimeAccesses (fun _ => 3) (fun _ => 0) 2, ¬x.Inside 2 2) ∧
    ∃ x ∈ rtimeAccesses (fun _ => 0) (fun _ => 0) 2, ¬x.Inside 0 2 := by
  decide

-- == what was compressed

lemma pairAccesses_nonneg {s : Decompress} (hknown : ∀ v, 0 ≤ s.positions v) {i : Int}
    (hi : .readOut i ∈ pairAccesses dataIn s) : 0 ≤ i := by
  simp only [pairAccesses, mem_append, mem_cons, not_mem_nil, or_false, mem_flatMap,
    reduceCtorEq, false_or, Access.readOut.injEq] at hi
  obtain ⟨k, -, rfl⟩ := hi
  exact Int.add_nonneg (hknown _) (Int.natCast_nonneg k)

lemma Mirrors.accesses {sourcelen : Nat} {dstlen : BitVec 32} {fin s : Compress} {t : Decompress}
    (hsource : sourcelen ≤ 32767) (hfin : compressCond sourcelen dstlen fin = false)
    (h : Mirrors dataIn sourcelen dstlen fin s t) (n : Nat) :
    ∀ x ∈ loopAccesses fin.cpageOut fin.pos n t,
      x.Inside fin.outpos fin.pos ∧ ∀ i, x = .readOut i → 0 ≤ i := by
  induction n generalizing s t with
  | zero => exact forall_mem_nil _
  | succ n ih =>
    intro x hx
    rw [loopAccesses] at hx
    split_ifs at hx with hlt
    · have hcond := (h.cond hfin).symm.trans (decide_eq_true hlt)
      rcases mem_append.mp hx with hx | hx
      · obtain ⟨m, hahead⟩ := h.ahead_body hfin hcond
        -- the pair and its run are part of what there is in the end
        have hpos := (compress_keeps dataIn sourcelen dstlen m (compressBody dataIn sourcelen s)).1
        have hout : (compressBody dataIn sourcelen s).outpos ≤ fin.outpos := by
          rw [← hahead]
          exact loop_invariant (fun s' : Compress => _ ≤ s'.outpos)
            (fun _ hle _ => Nat.le_add_right_of_le hle) le_rfl
        rw [hahead] at hpos
        refine ⟨pairAccesses_inside ?_ ?_ ?_ x hx, ?_⟩
        · rw [h.positions, h.outpos]
          exact fun v => (h.known v).2
        · rw [h.pos]
          exact hout
        · rw [(h.pair hfin hcond).2, h.outpos]
          exact hpos
        · rintro i rfl
          refine pairAccesses_nonneg ?_ hx
          rw [h.positions]
          exact fun v => (h.known v).1
      · exact ih (h.body hfin hcond hsource) x hx
    · exact absurd hx not_mem_nil

/-- What was compressed is decompressed in bounds: only the pairs written are
read, and only the bytes compressed are written and copied. -/
theorem compressed_accesses_inside {dataIn cpageOut : Buffer} {sourcelen : Nat} {dstlen : BitVec 32}
    (hsource : sourcelen ≤ 32767) {s d : Nat} {cpage : Buffer}
    (h : rtimeCompress dataIn cpageOut sourcelen dstlen = (some (s, d), cpage)) (out : Buffer) :
    ∀ x ∈ rtimeAccesses cpage out s, x.Inside d s ∧ ∀ i, x = .readOut i → 0 ≤ i := by
  obtain ⟨hsome, rfl⟩ := Prod.mk.inj h
  split_ifs at hsome
  obtain ⟨rfl, rfl⟩ := Prod.mk.inj (Option.some.inj hsome)
  have hdone :
      compressCond sourcelen dstlen (compressLoop dataIn cpageOut sourcelen dstlen) = false :=
    loop_done (fun s : Compress => sourcelen - s.pos) compressBody_lt le_rfl
  exact Mirrors.accesses hsource hdone (s := ⟨fun _ => 0, 0, 0, cpageOut⟩)
    ⟨⟨sourcelen, rfl⟩, rfl, rfl, rfl, nofun, Nat.zero_le _, fun _ => ⟨le_rfl, le_rfl⟩⟩ _

theorem three_accesses_inside : ∃ cpage,
    rtimeCompress (fun _ => 97) (fun _ => 0) 3 100 = (some (3, 2), cpage) ∧
      ∀ x ∈ rtimeAccesses cpage (fun _ => 0) 3, x.Inside 2 3 ∧ ∀ i, x = .readOut i → 0 ≤ i :=
  have hrun : rtimeCompress (fun _ => 97) (fun _ => 0) 3 100 = (some (3, 2), _) := rfl
  ⟨_, hrun, compressed_accesses_inside (by decide) hrun _⟩

end BoardStack.Compr.Rtime
