/-
Hexadecimal text of a bitmap, there and back.

The printer puts out the 32-bit chunks of a bitmap's number from the top
(`hexText`). The parser shifts its bitmap up by a chunk for each one it reads,
so that after the chunks from `k` on it stands for the number without its
lowest `k` chunks; leading chunks of zeros are skipped, and what has been
counted in bits is no more than that number needs (`Parsed`).
-/
import BoardStack.Bitmap.Words

namespace BoardStack.Bitmap

open Base Vsprintf List Nat

-- == printing

/-- The text of the chunks below `k`, the highest of `chunksz` bits. -/
def hexText (v : Nat) : Nat → Nat → List UInt8 → List UInt8
  | 0, _, _ => []
  | k + 1, chunksz, sep =>
    sep ++ ((hexDigits ((chunksz + 3) / 4)
      (v / 2 ^ (chunkSz * k) % 2 ^ chunksz)).map (digitChar 0x20)
      ++ hexText v k chunkSz comma)

lemma numeralDigits_hex_length {c v : Nat} (hc : 0 < c) (hv : v < 2 ^ c) :
    (numeralDigits 16 v).length ≤ (c + 3) / 4 := by
  unfold numeralDigits
  split
  · rw [length_singleton]
    omega
  · rw [length_reverse, digits_length_le_iff (by decide)]
    calc v < 2 ^ c := hv
      _ ≤ 2 ^ (4 * ((c + 3) / 4)) := Nat.pow_le_pow_right (by decide) (by omega)
      _ = 16 ^ ((c + 3) / 4) := by rw [Nat.pow_mul]

lemma chunkValue_eq {a : WordSize} {m : Words a} {n v k chunksz : Nat}
    (hm : Represents m n v) (hsz : chunksz ≤ 32) (hn : chunkSz * k + chunksz ≤ n) :
    (chunkValue m (chunkSz * k) chunksz).toNat = v / 2 ^ (chunkSz * k) % 2 ^ chunksz := by
  have hdiv := div_add_mod (chunkSz * k) a.bits
  -- a chunk does not go over the end of a word
  have hroom : chunkSz * k % a.bits + 32 ≤ a.bits := by
    cases a with
    | w32 =>
      show 32 * k % 32 + 32 ≤ 32
      omega
    | w64 =>
      show 32 * k % 64 + 32 ≤ 64
      omega
  apply eq_of_testBit_eq
  intro j
  have hbits : 2 ^ chunksz - 1 < 2 ^ a.bits := by
    have := Nat.pow_le_pow_right (n := 2) (by decide) (show chunksz ≤ a.bits by omega)
    have := Nat.two_pow_pos chunksz
    omega
  unfold chunkValue
  rw [BitVec.toNat_and, testBit_and, BitVec.toNat_ofNat,
    mod_eq_of_lt hbits, testBit_two_pow_sub_one, testBit_mod_two_pow, Bool.and_comm]
  by_cases hj : j < chunksz
  · rw [decide_eq_true hj, Bool.true_and, Bool.true_and, testBit_div_two_pow]
    have hbit : testBit m (chunkSz * k + j)
        = (m (chunkSz * k / a.bits)).getLsbD (chunkSz * k % a.bits + j) :=
      testBit_eq (by omega) (by rw [mul_comm _ a.bits]; omega)
    rw [add_comm, ← hm _ (by omega), hbit]
    exact BitVec.getLsbD_ushiftRight _ _ _
  · rw [decide_eq_false hj, Bool.false_and, Bool.false_and]

variable {env : Env}

lemma posAt_eq {buf len : Nat}
    (h : buf + len < 2 ^ env.word.bits) : posAt env buf len = buf + len := by
  unfold posAt
  rw [← Int.natCast_add]
  exact unsigned_eq h

variable {buf buflen n v : Nat} {m : Words env.word}

lemma hexChunk_spec (hm : Represents m n v) (hbuflen : buflen < 2147483648)
    (hend : buf + buflen < 2 ^ env.word.bits) {k chunksz : Nat}
    (sep : List UInt8) {text digs : List UInt8} {mem : Nat → UInt8}
    (hpos : 0 < chunksz) (hle : chunksz ≤ 32) (hn : chunkSz * k + chunksz ≤ n)
    (hdigs : (hexDigits ((chunksz + 3) / 4)
      (v / 2 ^ (chunkSz * k) % 2 ^ chunksz)).map (digitChar 0x20) = digs)
    (hfits : text.length + (sep.length + digs.length) < buflen)
    (hchars : ∀ i c, text[i]? = some c → mem (buf + i) = c) :
    ∃ mem', hexChunk env m buf buflen k chunksz sep text.length mem
        = some (((text ++ (sep ++ digs)).length : Int), mem') ∧
      HoldsString mem' buf (text ++ (sep ++ digs)) := by
  have hlt : v / 2 ^ (chunkSz * k) % 2 ^ chunksz < 2 ^ chunksz := mod_lt _ (Nat.two_pow_pos _)
  have hlt32 : v / 2 ^ (chunkSz * k) % 2 ^ chunksz < 2 ^ 32 :=
    lt_of_lt_of_le hlt (Nat.pow_le_pow_right (by decide) hle)
  have hprints := prints_hexChunk env sep (by omega) hlt32 (show (chunksz + 3) / 4 ≤ 100 by omega)
    (numeralDigits_hex_length hpos hlt)
  rw [hdigs, ← chunkValue_eq hm hle hn] at hprints
  have hfmt : lit "%s%0*lx" = hexFormat.chars := rfl
  rw [hfmt] at hprints
  obtain ⟨mem', hrun, hholds⟩ := scnprintf_append hbuflen hend
    (by rw [length_append]; omega) hchars hprints
  have hroom : unsigned 32 ((buflen : Int) - text.length) = buflen - text.length := by
    rw [← Int.ofNat_sub (by omega)]
    exact unsigned_eq (by omega)
  have hlen : int ((text.length : Int) + ((sep ++ digs).length : Nat))
      = ((text ++ (sep ++ digs)).length : Nat) := by
    rw [← Int.natCast_add, ← length_append]
    exact int_natCast (by rw [length_append, length_append]; omega)
  refine ⟨mem', ?_, hholds⟩
  unfold hexChunk
  rw [posAt_eq (by omega), hroom, hrun, Option.map_some, hlen]

/-- The loop prints the chunks. -/
theorem hexLoop_spec (hm : Represents m n v) (hbuflen : buflen < 2147483648)
    (hend : buf + buflen < 2 ^ env.word.bits) :
    ∀ (k chunksz : Nat) (sep text : List UInt8) (mem : Nat → UInt8),
      0 < chunksz → chunksz ≤ 32 → chunkSz * k ≤ n + (chunkSz - chunksz) →
      text.length + (hexText v k chunksz sep).length < buflen →
      (∀ i c, text[i]? = some c → mem (buf + i) = c) →
      (k = 0 → mem (buf + text.length) = 0) →
      ∃ mem', hexLoop env m buf buflen k chunksz sep text.length mem
          = some (((text ++ hexText v k chunksz sep).length : Int), mem') ∧
        HoldsString mem' buf (text ++ hexText v k chunksz sep) := by
  intro k
  induction k with
  | zero =>
    intro chunksz sep text mem _ _ _ _ hchars hnul
    rw [hexLoop, hexText, append_nil]
    exact ⟨mem, rfl, hchars, hnul rfl⟩
  | succ k ih =>
    intro chunksz sep text mem hpos hle hk hfits hchars _
    rw [hexText] at hfits ⊢
    generalize hdigs : (hexDigits ((chunksz + 3) / 4)
      (v / 2 ^ (chunkSz * k) % 2 ^ chunksz)).map (digitChar 0x20) = digs at hfits ⊢
    rw [length_append, length_append] at hfits
    obtain ⟨mem1, hchunk, hholds1⟩ := hexChunk_spec hm hbuflen hend sep
      hpos hle (by unfold chunkSz at *; omega) hdigs (by omega) hchars
    obtain ⟨mem2, hloop, hholds2⟩ := ih chunkSz comma
      (text ++ (sep ++ digs)) mem1 (by decide) (by decide)
      (by unfold chunkSz at *; omega)
      (by rw [length_append, length_append]; omega)
      hholds1.chars (fun _ => hholds1.nul)
    rw [append_assoc, append_assoc] at hloop hholds2
    refine ⟨mem2, ?_, hholds2⟩
    rw [hexLoop, hchunk, Option.bind_some]
    exact hloop

def chunks (n : Nat) : Nat := (n + 31) / 32

def topBits (n : Nat) : Nat :=
  if n % chunkSz = 0 then chunkSz else n % chunkSz

lemma first_chunk {n : Nat} (hn : 0 < n) (hlt : n < 2147483648) :
    (int (align n - chunkSz) / chunkSz + 1).toNat = chunks n := by
  have hchunks : int (align n - chunkSz) = 32 * ((chunks n : Int) - 1) := by
    unfold align chunks chunkSz
    by_cases hsmall : n + 31 < 2147483648
    · rw [int_eq (x := (n : Int) + 31) (by omega) (by omega), int_eq (by omega) (by omega)]
      omega
    -- the sum wraps, and the difference wraps back
    have hwrap : int ((n : Int) + 31) = (n : Int) + 31 - 4294967296 := by
      unfold int signed
      rw [Int.bmod_eq_iff (by decide)]
      refine ⟨by omega, by omega, ?_⟩
      omega
    rw [hwrap]
    have hback : int (((n : Int) + 31 - 4294967296) / 32 * 32 - (32 : Nat)) = 2147483616 := by
      have hval : ((n : Int) + 31 - 4294967296) / 32 * 32 = -2147483648 := by omega
      rw [hval]
      decide
    omega
  rw [hchunks]
  unfold chunkSz
  omega

-- == parsing

lemma digitChar_parse {d : Nat} (h : d < 16) :
    isspace (digitChar 0x20 d) = false ∧ digitChar 0x20 d ≠ 0 ∧
      digitChar 0x20 d ≠ ','.toUInt8 ∧ isxdigit (digitChar 0x20 d) = true ∧
      unhex (digitChar 0x20 d) = d := by
  interval_cases d <;> decide

lemma chunk_push {r d : Nat} (hr : r < 2 ^ 28) (hd : d < 16) :
    BitVec.ofNat 32 r &&& ~~~((1#32 <<< (chunkSz - 4)) - 1#32) = 0 ∧
      (BitVec.ofNat 32 r <<< 4) ||| BitVec.ofNat 32 d = BitVec.ofNat 32 (r * 16 + d) := by
  constructor
  · apply BitVec.eq_of_getLsbD_eq
    intro i hi
    have hmask : ((1#32 <<< (chunkSz - 4)) - 1#32).getLsbD i
        = decide (i < 28) := getLsbD_lowMask .w32 (by decide)
    rw [BitVec.getLsbD_and, BitVec.getLsbD_not, hmask, BitVec.getLsbD_ofNat, decide_eq_true hi]
    by_cases hlow : i < 28
    · rw [decide_eq_true hlow]
      simp
    · have hbit : r.testBit i = false := testBit_lt_two_pow (lt_of_lt_of_le hr
          (Nat.pow_le_pow_right (by decide) (Nat.le_of_not_lt hlow)))
      rw [hbit]
      simp
  · apply BitVec.eq_of_toNat_eq
    rw [BitVec.toNat_or, BitVec.toNat_shiftLeft, BitVec.toNat_ofNat,
      BitVec.toNat_ofNat, BitVec.toNat_ofNat, mod_eq_of_lt (by omega),
      mod_eq_of_lt (by omega), shiftLeft_eq, mod_eq_of_lt (by omega),
      mod_eq_of_lt (by omega), mul_comm]
    exact (two_pow_add_eq_or_of_lt (i := 4) hd r).symm

lemma chunkLoop_digits {ds : List Nat} (hds : ∀ d ∈ ds, d < 16)
    {r : Nat} (hlt : readDigits 16 ds r < 2 ^ 32) (rest : List (Option UInt8))
    {c : UInt8} (hc : isspace c = false) (total : Int) {nd : Int} (hnd : 0 ≤ nd)
    (hnd' : nd + ds.length < 2147483648) :
    ∃ c' total', isspace c' = false ∧
      chunkLoop (ds.map (fun d => some (digitChar 0x20 d)) ++ rest) c total nd (BitVec.ofNat 32 r)
        = chunkLoop rest c' total' (nd + ds.length) (BitVec.ofNat 32 (readDigits 16 ds r)) := by
  induction ds generalizing r c total nd with
  | nil =>
    refine ⟨c, total, hc, ?_⟩
    rw [length_nil, Int.natCast_zero, add_zero]
    rfl
  | cons d ds ih =>
    have hd := hds d mem_cons_self
    obtain ⟨hspace, hzero, hcomma, hx, hval⟩ := digitChar_parse hd
    rw [length_cons] at hnd'
    have hr : r < 2 ^ 28 := by
      have hle : r * 16 + d ≤ readDigits 16 ds (r * 16 + d) := le_readDigits (by decide) ds _
      have : r * 16 + d < 2 ^ 32 := lt_of_le_of_lt hle hlt
      omega
    obtain ⟨hfree, hpush⟩ := chunk_push hr hd
    obtain ⟨c', total', hc', hloop⟩ := ih (fun d' hd' => hds d' (mem_cons_of_mem d hd')) hlt hspace
      (int (total + 1)) (show 0 ≤ nd + 1 by omega) (by omega)
    refine ⟨c', total', hc', ?_⟩
    rw [map_cons, cons_append, chunkLoop, if_neg (by rw [hspace]; decide),
      if_neg (by rw [hc]; simp), if_neg (by simp [hzero, hcomma]),
      if_neg (by rw [hx]; decide), if_neg (not_not_intro hfree), hval, hpush,
      int_eq (x := nd + 1) (by omega) (by omega), hloop]
    rw [length_cons]
    congr 1
    omega

/-- What may stand behind the text: nothing, or a NUL. -/
def Ends (rest : List (Option UInt8)) : Prop := rest = [] ∨ ∃ more, rest = some 0 :: more

/-- What has been read: the bitmap of the number without its lowest `k`
chunks. -/
structure Parsed {a : WordSize} (n v k : Nat) (p : Parser a) : Prop where
  notSpace : isspace p.c = false
  bits : Represents p.maskp n (v / 2 ^ (chunkSz * k))
  nchunks : 0 ≤ p.nchunks ∧ p.nchunks + k ≤ chunks n
  none : p.nchunks = 0 → v / 2 ^ (chunkSz * k) = 0 ∧ p.nbits = 0
  some : p.nchunks ≠ 0 → 1 ≤ p.nbits ∧ 2 ^ (p.nbits.toNat - 1) ≤ v / 2 ^ (chunkSz * k)

lemma readDigits_hexDigits (width v : Nat) : readDigits 16 (hexDigits width v) 0 = v := by
  unfold hexDigits
  rw [readDigits_zeros, readDigits_numeral]

lemma hexDigits_lt (width v : Nat) : ∀ d ∈ hexDigits width v, d < 16 := by
  intro d hd
  rcases mem_append.mp hd with hd | hd
  · rw [eq_of_mem_replicate hd]
    decide
  · exact numeralDigits_lt (by decide) d hd

lemma hexDigits_length {width v : Nat} (h : (numeralDigits 16 v).length ≤ width) :
    (hexDigits width v).length = width := by
  unfold hexDigits
  rw [length_append, length_replicate]
  omega

section

variable {a : WordSize} {n v k chunksz : Nat} {p : Parser a}

lemma div_chunk (v k : Nat) :
    v / 2 ^ (chunkSz * k) = v / 2 ^ (chunkSz * (k + 1)) * 2 ^ 32
      + v / 2 ^ (chunkSz * k) % 2 ^ 32 := by
  have hdiv : v / 2 ^ (chunkSz * (k + 1)) = v / 2 ^ (chunkSz * k) / 2 ^ 32 := by
    rw [Nat.div_div_eq_div_mul, ← pow_add]
    rfl
  rw [hdiv]
  exact (div_add_mod' _ _).symm

lemma represents_push {m : Words a} (h : Represents m n (v / 2 ^ (chunkSz * (k + 1))))
    {chunk : BitVec 32} (hchunk : chunk.toNat = v / 2 ^ (chunkSz * k) % 2 ^ 32) :
    Represents (orChunk (bitmapShiftLeft m chunkSz n) chunk) n (v / 2 ^ (chunkSz * k)) := by
  intro i hi
  have hbit : chunk.getLsbD i = (decide (i < 32) && v.testBit (i + chunkSz * k)) := by
    rw [BitVec.getLsbD, hchunk, testBit_mod_two_pow, testBit_div_two_pow]
  rw [testBit_orChunk, testBit_bitmapShiftLeft m chunkSz
      (Nat.lt_of_lt_of_le hi (bitsToLongs_bounds a n).1), decide_eq_true hi,
    Bool.true_and, hbit, testBit_div_two_pow]
  by_cases hlow : i < 32
  · rw [decide_eq_true hlow, decide_eq_false (by unfold chunkSz; omega)]
    simp
  rw [decide_eq_false hlow, decide_eq_true (by unfold chunkSz; omega),
    h _ (by omega), testBit_div_two_pow, Bool.true_and, Bool.false_and, Bool.or_false]
  congr 1
  unfold chunkSz
  omega

lemma Parsed.count (h : Parsed n v (k + 1) p) {x : Nat} (hx : v / 2 ^ (chunkSz * k) % 2 ^ 32 = x)
    (hskip : ¬(p.nchunks = 0 ∧ x = 0)) :
    ∃ nbits : Nat, 1 ≤ nbits ∧
      p.nbits + (if p.nchunks + 1 = 1 then fls (BitVec.ofNat 32 x) else chunkSz : Nat) = nbits ∧
      2 ^ (nbits - 1) ≤ v / 2 ^ (chunkSz * k) := by
  have hdiv := div_chunk v k
  have hlt : x < 2 ^ 32 := by
    rw [← hx]
    exact mod_lt _ (by decide)
  rw [hx] at hdiv
  by_cases hfirst : p.nchunks = 0
  · have hne : x ≠ 0 := fun h => hskip ⟨hfirst, h⟩
    obtain ⟨hzero, hnbits⟩ := h.none hfirst
    have hof : (BitVec.ofNat 32 x).toNat = x := by
      rw [BitVec.toNat_ofNat]
      exact mod_eq_of_lt hlt
    have hfls : fls (BitVec.ofNat 32 x) = log2 x + 1 := by
      unfold fls
      rw [hof, if_neg]
      intro heq
      rw [heq] at hof
      exact hne hof.symm
    refine ⟨log2 x + 1, by omega, ?_, ?_⟩
    · rw [hfirst, hnbits, if_pos (zero_add 1), hfls, zero_add]
    · rw [hdiv, hzero, zero_mul, zero_add, Nat.add_sub_cancel]
      exact log2_self_le hne
  · obtain ⟨hpos, hle⟩ := h.some hfirst
    refine ⟨p.nbits.toNat + 32, by omega, ?_, ?_⟩
    · rw [if_neg (by omega)]
      unfold chunkSz
      omega
    · rw [hdiv, show p.nbits.toNat + 32 - 1 = p.nbits.toNat - 1 + 32 by omega, pow_add]
      exact le_add_right_of_le (Nat.mul_le_mul_right _ hle)

variable {last : UInt8 → Prop}

/-- A chunk. -/
theorem parseBody_spec (hn : n < 2147483648) (hv : v < 2 ^ n)
    (h : Parsed n v (k + 1) p) {ds : List Nat} {rest after : List (Option UInt8)}
    (hds : ∀ d ∈ ds, d < 16) (hlen : 0 < ds.length) (hlen' : ds.length ≤ 100)
    (hval : readDigits 16 ds 0 = v / 2 ^ (chunkSz * k) % 2 ^ 32)
    (hbuf : p.buf = ds.map (fun d => some (digitChar 0x20 d)) ++ rest)
    (hend : ∀ c total nd chunk, isspace c = false → ∃ c' total', isspace c' = false ∧ last c' ∧
      chunkLoop rest c total nd chunk = .ok ⟨after, c', total', nd, chunk⟩) :
    ∃ p', parseBody n p = .ok p' ∧ p'.buf = after ∧ last p'.c ∧ Parsed n v k p' := by
  have hlt : readDigits 16 ds 0 < 2 ^ 32 := by
    rw [hval]
    exact mod_lt _ (by decide)
  obtain ⟨c1, total1, hc1, hloop⟩ := chunkLoop_digits hds hlt rest
    h.notSpace p.totaldigits le_rfl (by omega)
  obtain ⟨c2, total2, hc2, hlast, hstop⟩ := hend c1 total1 (0 + ds.length)
    (BitVec.ofNat 32 (readDigits 16 ds 0)) hc1
  have hread : chunkLoop p.buf p.c p.totaldigits 0 0
      = .ok ⟨after, c2, total2, 0 + ds.length, BitVec.ofNat 32 (readDigits 16 ds 0)⟩ := by
    rw [hbuf]
    exact hloop.trans hstop
  have hdiv := div_chunk v k
  have hchunks : chunks n ≤ 67108864 := by
    unfold chunks
    omega
  obtain ⟨hnc, hnc'⟩ := h.nchunks
  rw [hval] at hread hlt
  generalize hx : v / 2 ^ (chunkSz * k) % 2 ^ 32 = x at hread hlt hdiv
  have hof : (BitVec.ofNat 32 x).toNat = x := by
    rw [BitVec.toNat_ofNat]
    exact mod_eq_of_lt hlt
  have hzero : BitVec.ofNat 32 x = 0 ↔ x = 0 := by
    constructor
    · intro heq
      rw [heq] at hof
      exact hof.symm
    · rintro rfl
      rfl
  unfold parseBody
  rw [hread]
  dsimp only
  rw [if_neg (by omega)]
  by_cases hskip : p.nchunks = 0 ∧ x = 0
  · rw [if_pos ⟨hskip.1, hzero.mpr hskip.2⟩]
    obtain ⟨hnone, hnbits⟩ := h.none hskip.1
    have hzero' : v / 2 ^ (chunkSz * k) = 0 := by rw [hdiv, hnone, hskip.2, zero_mul]
    refine ⟨_, rfl, rfl, hlast, hc2, ?_, ⟨hnc, ?_⟩, ?_, ?_⟩
    · rw [hzero', ← hnone]
      exact h.bits
    · show p.nchunks + (k : Int) ≤ chunks n
      omega
    · exact fun _ => ⟨hzero', hnbits⟩
    · exact fun hne => absurd hskip.1 hne
  · rw [if_neg fun h => hskip ⟨h.1, hzero.mp h.2⟩]
    obtain ⟨nbits, hpos, hcount, hle⟩ := h.count hx hskip
    have hnbits : nbits ≤ n := by
      have hpow : 2 ^ (nbits - 1) < 2 ^ n := lt_of_le_of_lt (hle.trans (Nat.div_le_self _ _)) hv
      have := (Nat.pow_lt_pow_iff_right (by decide)).mp hpow
      omega
    rw [int_eq (x := p.nchunks + 1) (by omega) (by omega), hcount,
      int_natCast (by omega), if_neg (by omega)]
    refine ⟨_, rfl, rfl, hlast, hc2, represents_push h.bits (hof.trans hx.symm), ⟨?_, ?_⟩, ?_, ?_⟩
    · show 0 ≤ p.nchunks + 1
      omega
    · show p.nchunks + 1 + (k : Int) ≤ chunks n
      omega
    · intro heq
      have : p.nchunks + 1 = 0 := heq
      omega
    · intro _
      refine ⟨?_, ?_⟩
      · show 1 ≤ (nbits : Int)
        omega
      · show 2 ^ ((nbits : Int).toNat - 1) ≤ _
        rw [Int.toNat_natCast]
        exact hle

lemma le_hexText_length (v k : Nat) {chunksz : Nat} (sep : List UInt8)
    (hpos : 0 < chunksz) (hle : chunksz ≤ 32) :
    k ≤ (hexText v k chunksz sep).length := by
  induction k generalizing chunksz sep with
  | zero => exact Nat.zero_le _
  | succ k ih =>
    have hlen := hexDigits_length (numeralDigits_hex_length hpos
      (mod_lt (v / 2 ^ (chunkSz * k)) (Nat.two_pow_pos chunksz)))
    have hrest := ih comma (show 0 < chunkSz by decide) (by decide)
    rw [hexText, length_append, length_append, length_map, hlen]
    omega

lemma hexText_comma (v k chunksz : Nat) :
    hexText v (k + 1) chunksz comma = ','.toUInt8 :: hexText v (k + 1) chunksz [] := by
  rw [hexText, hexText, show comma = [','.toUInt8] by decide]
  rfl

lemma chunkLoop_ends {rest : List (Option UInt8)} (hrest : Ends rest) :
    ∃ after, ∀ c total nd chunk, isspace c = false → ∃ c' total',
      isspace c' = false ∧ (after = [] ∨ c' = 0) ∧
      chunkLoop rest c total nd chunk = .ok ⟨after, c', total', nd, chunk⟩ := by
  rcases hrest with rfl | ⟨more, rfl⟩
  · exact ⟨[], fun c total nd chunk hc => ⟨c, total, hc, .inl rfl, rfl⟩⟩
  · refine ⟨more, fun c total nd chunk hc => ⟨0, total, by decide, .inr rfl, ?_⟩⟩
    rw [chunkLoop, if_neg (by decide), if_neg fun h => h.2.1 rfl, if_pos (.inl rfl)]

lemma chunkLoop_comma (rest : List (Option UInt8)) {c : UInt8}
    (total nd : Int) (chunk : BitVec 32) (hc : isspace c = false) :
    ∃ c' total', isspace c' = false ∧ c' = ','.toUInt8 ∧
      chunkLoop (some ','.toUInt8 :: rest) c total nd chunk
        = .ok ⟨rest, c', total', nd, chunk⟩ := by
  refine ⟨_, total, by decide, rfl, ?_⟩
  rw [chunkLoop, if_neg (by decide), if_neg (by rw [hc]; simp), if_pos (.inr rfl)]

lemma parseBody_chunk (hn : n < 2147483648) (hv : v < 2 ^ n)
    (hpos : 0 < chunksz) (hle : chunksz ≤ 32) (hsame : v / 2 ^ (chunkSz * k) % 2 ^ chunksz
      = v / 2 ^ (chunkSz * k) % 2 ^ 32) (h : Parsed n v (k + 1) p)
    {tail after : List (Option UInt8)}
    (hbuf : p.buf = (hexText v (k + 1) chunksz []).map some ++ tail)
    (hend : ∀ c total nd chunk, isspace c = false → ∃ c' total', isspace c' = false ∧ last c' ∧
      chunkLoop ((hexText v k chunkSz comma).map some ++ tail) c total nd chunk
        = .ok ⟨after, c', total', nd, chunk⟩) :
    ∃ p', parseBody n p = .ok p' ∧ p'.buf = after ∧ last p'.c ∧ Parsed n v k p' := by
  have hlt : v / 2 ^ (chunkSz * k) % 2 ^ chunksz < 2 ^ chunksz := mod_lt _ (Nat.two_pow_pos _)
  have hlen := hexDigits_length (numeralDigits_hex_length hpos hlt)
  rw [hexText, nil_append, map_append, map_map, append_assoc] at hbuf
  exact parseBody_spec hn hv h (hexDigits_lt _ _) (by omega) (by omega)
    (by rw [readDigits_hexDigits, hsame]) hbuf hend

/-- The loop reads the chunks back. -/
theorem parseLoop_spec (hn : n < 2147483648) (hv : v < 2 ^ n)
    {tail : List (Option UInt8)} (htail : Ends tail) :
    ∀ (k fuel chunksz : Nat) (p : Parser a), k < fuel → 0 < chunksz → chunksz ≤ 32 →
      v / 2 ^ (chunkSz * k) % 2 ^ chunksz = v / 2 ^ (chunkSz * k) % 2 ^ 32 →
      Parsed n v (k + 1) p →
      p.buf = (hexText v (k + 1) chunksz []).map some ++ tail →
      ∃ m, parseLoop n fuel p = .ok m ∧ Represents m n v := by
  intro k
  induction k with
  | zero =>
    intro fuel chunksz p hfuel hpos hle hsame h hbuf
    rcases fuel with _ | fuel
    · omega
    obtain ⟨after, hend⟩ := chunkLoop_ends htail
    obtain ⟨p', hbody, hafter, hlast, hparsed⟩ := parseBody_chunk hn hv hpos hle hsame h hbuf hend
    have hbits := hparsed.bits
    rw [mul_zero, pow_zero, Nat.div_one] at hbits
    refine ⟨p'.maskp, ?_, hbits⟩
    rw [parseLoop, hbody]
    dsimp only
    rw [if_neg]
    rintro ⟨hne, hc⟩
    rcases hlast with hnil | hzero
    · exact hne (hafter.trans hnil)
    · rw [hzero] at hc
      exact absurd hc (by decide)
  | succ k ih =>
    intro fuel chunksz p hfuel hpos hle hsame h hbuf
    rcases fuel with _ | fuel
    · omega
    obtain ⟨p', hbody, hafter, hlast, hparsed⟩ :=
      parseBody_chunk hn hv hpos hle hsame h hbuf fun c total nd chunk hc => by
        rw [hexText_comma, map_cons, cons_append]
        exact chunkLoop_comma _ total nd chunk hc
    obtain ⟨m, hloop, hm⟩ := ih fuel chunkSz p' (by omega) (by decide)
      (by decide) rfl hparsed hafter
    refine ⟨m, ?_, hm⟩
    rw [parseLoop, hbody]
    dsimp only
    have hne : p'.buf ≠ [] := by
      have hlen := le_hexText_length v (k + 1) [] (show 0 < chunkSz by decide) le_rfl
      rw [hafter, ← length_pos_iff, length_append, length_map]
      omega
    rw [if_pos ⟨hne, hlast⟩]
    exact hloop

end

/-- Hexadecimal text is read back. -/
theorem bitmapParse_hexText {a : WordSize} {n v : Nat} (hpos : 0 < n) (hn : n < 2147483648)
    (hv : v < 2 ^ n) (m : Words a) {tail : List (Option UInt8)} (htail : Ends tail) :
    ∃ m', bitmapParse ((hexText v (chunks n) (topBits n) []).map some ++ tail)
        m n = .ok m' ∧ Represents m' n v := by
  obtain ⟨k, hk⟩ : ∃ k, chunks n = k + 1 := ⟨chunks n - 1, by unfold chunks; omega⟩
  have htop : 0 < topBits n ∧ topBits n ≤ 32 ∧ chunkSz * k + topBits n = n := by
    unfold chunks at hk
    unfold topBits chunkSz
    split <;> omega
  have hbig : v / 2 ^ (chunkSz * k) < 2 ^ topBits n := by
    rw [Nat.div_lt_iff_lt_mul (Nat.two_pow_pos _), ← pow_add, add_comm, htop.2.2]
    exact hv
  have hstart : v / 2 ^ (chunkSz * (k + 1)) = 0 := by
    apply div_eq_of_lt
    refine lt_of_lt_of_le hv (Nat.pow_le_pow_right (by decide) ?_)
    unfold chunkSz at *
    omega
  rw [hk]
  refine parseLoop_spec hn hv htail k _ (topBits n) _ ?_ htop.1 htop.2.1 ?_
    ⟨show isspace 0 = false by decide, ?_, ⟨le_rfl, ?_⟩, fun _ => ⟨hstart, rfl⟩,
      fun h => absurd rfl h⟩ rfl
  · have hlen := le_hexText_length v (k + 1) [] htop.1 htop.2.1
    rw [length_append, length_map]
    omega
  · rw [mod_eq_of_lt hbig, mod_eq_of_lt (lt_of_lt_of_le hbig
      (Nat.pow_le_pow_right (by decide) htop.2.1))]
  · intro i hi
    rw [hstart, testBit_bitmapZero m hi, zero_testBit]
  · rw [hk]
    show (0 : Int) + ((k + 1 : Nat) : Int) ≤ _
    omega

end BoardStack.Bitmap
