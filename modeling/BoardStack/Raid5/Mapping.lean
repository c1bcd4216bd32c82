/-
The mapping of RAID 4, 5 and 6 arrays is undone by `compute_blocknr`.

Inside a stripe, `dataIndex` undoes `selectDisks`: for the layouts that
restart the data after the parity disk this is skipping one disk, for those
that continue it a rotation. Around that, both functions divide: a sector is
an offset in a chunk, a chunk is a place in a stripe. So `compute_blocknr` leads
back from where `raid5_compute_sector` leads to, and no two sectors of the array
share a place.

The rotation adds two disk numbers as `int`. With more than `2 ^ 30` disks
the sum wraps for some sectors, and the disk is a negative one. Long before that,
with more than `2 ^ 15` disks, the number of the parity disk that is kept for the
way back is cut to a `short`; where the parity disk moves, the way back is lost.

Of the fourteen layouts of level 6 thirteen are undone: P and Q move together and
the data skips them, or follows them round the row, or Q stays on the last disk and
the rest is a level 5 row. `ALGORITHM_ROTATING_N_CONTINUE` places the data behind P
and round the row, and `compute_blocknr` takes it to start at the first disk; the
two agree only if P is on disk 0, on disk 1 or on the last.
-/
import Mathlib.Algebra.Order.Ring.Abs
import BoardStack.Raid5.Basic

namespace BoardStack.Raid5

open Base Option Nat Int

-- == one stripe

def layouts5 : List Algorithm :=
  [.leftAsymmetric, .rightAsymmetric, .leftSymmetric, .rightSymmetric, .parity0, .parityN]

/-- The layouts that continue the data after the parity disk. -/
def symmetric5 : List Algorithm := [.leftSymmetric, .rightSymmetric]

lemma int_eq {x : Int} (hlo : -2 ^ 31 ≤ x) (hhi : x < 2 ^ 31) : int x = x :=
  signed_eq (w := 31) hlo hhi

lemma tmod_wrap {x n : Int} (h : 0 ≤ x) (hn : x < 2 * n) :
    x.tmod n = if x < n then x else x - n := by
  rw [tmod_eq_emod_of_nonneg h]
  split
  · exact emod_eq_of_lt h ‹_›
  · rw [← sub_emod_right, emod_eq_of_lt (by omega) (by omega)]

/-- The disks chosen for a data chunk: in range, different, and the chunk
can be told from them. -/
structure Placed (level : Level) (algorithm : Algorithm) (n j : Int) (d : Disks) : Prop where
  dd_nonneg : 0 ≤ d.ddIdx
  dd_lt : d.ddIdx < n
  pd_nonneg : 0 ≤ d.pdIdx
  pd_lt : d.pdIdx < n
  ne : d.ddIdx ≠ d.pdIdx
  back : dataIndex level algorithm n (n - 1) d.pdIdx d.ddIdx = some j

/-- A disk number that a `short` holds is kept. -/
lemma toInt_ofInt_short {x : Int} (hlo : 0 ≤ x) (hhi : x < 2 ^ 15) :
    (BitVec.ofInt 16 x).toInt = x := by
  rw [BitVec.toInt_ofInt]
  exact signed_eq (w := 15) (by omega) hhi

/-- And one whose lowest sixteen bits begin with a 1 becomes negative. -/
lemma toInt_ofInt_short_neg {x : Int} (h : 2 ^ 15 ≤ x % 2 ^ 16) :
    (BitVec.ofInt 16 x).toInt < 0 := by
  rw [BitVec.toInt_ofInt, bmod_def]
  norm_num at h ⊢
  omega

variable {algorithm : Algorithm}

lemma selectDisks_spec (a : WordSize) {level : Level} {n stripe j : Int}
    (hlayout : level = .four ∨ level = .five ∧ algorithm ∈ layouts5) (hn : 2 ≤ n) (hn' : n < 2 ^ 31)
    (hsym : level = .five → algorithm ∈ symmetric5 → n ≤ 2 ^ 30)
    (hstripe : 0 ≤ stripe) (hj : 0 ≤ j) (hjn : j < n - 1) :
    ∃ d, selectDisks a level algorithm n (n - 1) stripe j = some d ∧
      Placed level algorithm n j d := by
  have hlo : 0 ≤ stripe.tmod n := tmod_nonneg n hstripe
  have hhi : stripe.tmod n < n := tmod_lt_of_pos stripe (by omega)
  have hplaced : ∀ {level} {d : Disks} {i : Int}, 0 ≤ d.ddIdx ∧ d.ddIdx < n ∧ 0 ≤ d.pdIdx ∧
      d.pdIdx < n ∧ d.ddIdx ≠ d.pdIdx ∧ i = j →
      dataIndex level algorithm n (n - 1) d.pdIdx d.ddIdx = some i →
      Placed level algorithm n j d := by
    rintro level d i ⟨h0, hlt, hp0, hplt, hne, rfl⟩ hback
    exact ⟨h0, hlt, hp0, hplt, hne, hback⟩
  rcases hlayout with rfl | ⟨rfl, hmem⟩
  · refine ⟨_, rfl, hplaced ?_ rfl⟩
    dsimp only
    omega
  cases algorithm with
  | leftAsymmetric | rightAsymmetric | parity0 =>
    refine ⟨_, rfl, hplaced ?_ rfl⟩
    simp (disch := omega) only [int_eq]
    omega
  | leftSymmetric | rightSymmetric =>
    have hsym := hsym rfl (by decide)
    refine ⟨_, rfl, hplaced ?_ rfl⟩
    simp (disch := omega) only [int_eq, tmod_wrap]
    omega
  | parityN =>
    refine ⟨_, rfl, hplaced ?_ rfl⟩
    dsimp only
    omega
  | _ => exact absurd hmem (by decide)

-- == the array

/-- A level 4 or 5 array: two or more disks, and a chunk of at least one
sector. -/
structure Valid (conf : Conf) (previous : Bool) : Prop where
  layout : conf.level = .four ∨ conf.level = .five ∧ conf.algo previous ∈ layouts5
  degraded : conf.maxDegraded = 1
  disks_ge : 2 ≤ conf.disks previous
  disks_lt : conf.disks previous < 2 ^ 31
  disks_le : conf.level = .five → conf.algo previous ∈ symmetric5 → conf.disks previous ≤ 2 ^ 30
  chunk_pos : 0 < conf.sectorsPerChunk previous
  chunk_lt : conf.sectorsPerChunk previous < 2 ^ 31

/-- A sector of the array whose chunk has a number below `2 ^ 31`. -/
structure Addressable (b : WordSize) (conf : Conf) (previous : Bool) (sector : Nat) : Prop where
  sector_lt : sector < 2 ^ b.bits
  chunk_lt : sector / (conf.sectorsPerChunk previous).toNat < 2 ^ 31

section

variable {conf : Conf} {previous : Bool}

lemma fits (a : WordSize) {x : Nat} (h : x < 2 ^ 31) :
    unsigned a.bits x = x ∧ signed a.bits x = x ∧ int x = x := by
  have hint : int x = x := int_eq (by omega) (by omega)
  cases a with
  | w32 => exact ⟨unsigned_eq (show x < 2 ^ 32 by omega), hint, hint⟩
  | w64 =>
    exact ⟨unsigned_eq (show x < 2 ^ 64 by omega), signed_eq (w := 63) (by omega) (by omega), hint⟩

structure Geometry (conf : Conf) (previous : Bool) (n k : Nat) : Prop where
  data_pos : 0 < n
  data_lt : n < 2 ^ 31
  disks_eq : conf.disks previous = n + conf.maxDegraded
  data_eq : int (conf.disks previous - conf.maxDegraded) = n
  chunk_pos : 0 < k
  chunk_lt : k < 2 ^ 31
  chunk_eq : conf.sectorsPerChunk previous = k

lemma exists_geometry (hm : 0 ≤ conf.maxDegraded) (hge : conf.maxDegraded < conf.disks previous)
    (hlt : conf.disks previous < 2 ^ 31) (hpos : 0 < conf.sectorsPerChunk previous)
    (hlt' : conf.sectorsPerChunk previous < 2 ^ 31) : ∃ n k, Geometry conf previous n k := by
  obtain ⟨n, hn⟩ := eq_ofNat_of_zero_le (show 0 ≤ conf.disks previous - conf.maxDegraded by omega)
  obtain ⟨k, hk⟩ := eq_ofNat_of_zero_le (show 0 ≤ conf.sectorsPerChunk previous by omega)
  refine ⟨n, k, by omega, by omega, by omega, ?_, by omega, by omega, hk⟩
  rw [hn]
  exact int_eq (by omega) (by omega)

lemma Geometry.number_lt {b : WordSize} {n k sector : Nat} (hg : Geometry conf previous n k)
    (hs : Addressable b conf previous sector) : sector / k < 2 ^ 31 := by
  have := hs.chunk_lt
  rwa [hg.chunk_eq, toNat_natCast] at this

lemma sectorDiv_eq {k : Nat} (hk : 0 < k) (sector : Nat) :
    sectorDiv sector k = some (sector / k, sector % k) := by
  unfold sectorDiv
  rw [if_neg (by omega), toNat_natCast]

end

section

variable {a b : WordSize} {conf : Conf} {previous : Bool} {sector n k : Nat}

lemma raid5ComputeSector_eq (hg : Geometry conf previous n k) {d : Disks}
    (hs : Addressable b conf previous sector)
    (hd : selectDisks a conf.level (conf.algo previous) (conf.disks previous) n
      (sector / k / n : Nat) (sector / k % n : Nat) = some d) :
    raid5ComputeSector a b conf sector previous
      = some (sector / k / n * k + sector % k, d.store) := by
  have hlt := hg.number_lt hs
  have hmod : sector / k % n < n := mod_lt _ hg.data_pos
  have hdiv : sector / k / n ≤ sector / k := Nat.div_le_self _ _
  have hle : sector / k / n * k + sector % k ≤ sector := by
    have hmul : sector / k / n * k ≤ sector / k * k := Nat.mul_le_mul_right k hdiv
    have hsum := div_add_mod' sector k
    omega
  have hnew : unsigned b.bits (((sector / k / n : Nat) : Int) * k + (sector % k : Nat))
      = sector / k / n * k + sector % k := by
    rw [← natCast_mul, ← natCast_add]
    exact unsigned_eq (lt_of_le_of_lt hle hs.sector_lt)
  have hzero : ¬ (sector / k ≠ sector / k ∨ (n : Int) = 0) := by
    have := hg.data_pos
    omega
  unfold raid5ComputeSector
  simp only [hg.data_eq, hg.chunk_eq, sectorDiv_eq hg.chunk_pos,
    bind_eq_bind, bind_some, (fits a hlt).1, (fits a hg.data_lt).1]
  rw [if_neg hzero, (fits a (lt_of_le_of_lt hdiv hlt)).2.1,
    (fits a (lt_trans hmod hg.data_lt)).2.2, hd, bind_some, hnew]

lemma stripe_eq (hk : 0 < k) (stripe sector : Nat) : (stripe * k + sector % k) / k = stripe := by
  rw [mul_comm, mul_add_div hk, div_eq_of_lt (mod_lt _ hk), add_zero]

lemma computeBlocknr_eq (hg : Geometry conf previous n k) {d : Disks}
    (hs : Addressable b conf previous sector)
    (hrun : raid5ComputeSector a b conf sector previous
      = some (sector / k / n * k + sector % k, d.store))
    (hpd : d.ddIdx ≠ d.store.pdIdx.toInt)
    (hqd : conf.level = .six → d.ddIdx ≠ d.store.qdIdx.toInt)
    (hindex : dataIndex conf.level (conf.algo previous) (conf.disks previous) n
      d.store.pdIdx.toInt d.ddIdx = some ((sector / k % n : Nat) : Int)) :
    computeBlocknr a b conf ⟨sector / k / n * k + sector % k,
        conf.disks previous, d.store.pdIdx, d.store.qdIdx⟩ d.ddIdx previous
      = some sector := by
  have hlt := hg.number_lt hs
  have hk := hg.chunk_pos
  have hoff : sector % k < k := mod_lt _ hk
  have hoffset : (sector / k / n * k + sector % k) % k = sector % k := by
    rw [mul_add_mod_self_right, mod_eq_of_lt hoff]
  have hnumber : ((sector / k / n : Nat) : Int) * n
      + (sector / k % n : Nat) = (sector / k : Nat) := by
    exact_mod_cast div_add_mod' (sector / k) n
  have hback : ((sector / k : Nat) : Int) * k + (sector % k : Nat) = sector := by
    exact_mod_cast div_add_mod' sector k
  unfold computeBlocknr
  simp only [hg.data_eq, hg.chunk_eq, sectorDiv_eq hk, stripe_eq hk, hoffset,
    bind_eq_bind, bind_some]
  rw [if_neg hpd, if_neg fun h => hqd h.1 h.2, hindex,
    bind_some, hnumber, (fits b hlt).1, (fits b hlt).2.2,
    (fits b (lt_trans hoff hg.chunk_lt)).2.2, hback, unsigned_eq hs.sector_lt, hrun, bind_some]
  simp [Disks.store]

/-- The layouts of level 5 whose parity disk moves. -/
def rotating5 : List Algorithm :=
  [.leftAsymmetric, .rightAsymmetric, .leftSymmetric, .rightSymmetric]

/-- A `short` holds every parity disk that moves; and the last disk, cut to a `short`,
is no data disk. -/
structure FitsShort (conf : Conf) (previous : Bool) : Prop where
  moving : conf.level = .five → conf.algo previous ∈ rotating5 → conf.disks previous ≤ 2 ^ 15
  last : conf.level = .four ∨ conf.algo previous = .parityN →
    conf.disks previous ≤ 2 ^ 15 ∨ 2 ^ 15 ≤ (conf.disks previous - 1) % 2 ^ 16

/-- The last disk is not taken for a data disk. -/
lemma ne_last {m x : Int} (hm : m ≤ 2 ^ 15 ∨ 2 ^ 15 ≤ (m - 1) % 2 ^ 16) (hx : 0 ≤ x)
    (hlt : x < m - 1) : x ≠ (BitVec.ofInt 16 (m - 1)).toInt := by
  rcases hm with hle | hneg
  · rw [toInt_ofInt_short (by omega) (by omega)]
    omega
  · have := toInt_ofInt_short_neg hneg
    omega

/-- What is kept of the parity disk is enough for the way back. -/
lemma Placed.short {stripe j m : Int} {d : Disks} (h : Valid conf previous)
    (hshort : FitsShort conf previous) (hm : conf.disks previous = m)
    (hd : selectDisks a conf.level (conf.algo previous) m (m - 1) stripe j = some d)
    (hp : Placed conf.level (conf.algo previous) m j d) :
    d.ddIdx ≠ d.store.pdIdx.toInt ∧
      dataIndex conf.level (conf.algo previous) m (m - 1) d.store.pdIdx.toInt d.ddIdx = some j := by
  obtain ⟨hmoving, hlast⟩ := hshort
  rw [hm] at hmoving hlast
  -- the parity disk is kept as it is
  have hkept : m ≤ 2 ^ 15 → d.ddIdx ≠ d.store.pdIdx.toInt ∧ dataIndex conf.level
      (conf.algo previous) m (m - 1) d.store.pdIdx.toInt d.ddIdx = some j := by
    intro hle
    have hpd := toInt_ofInt_short hp.pd_nonneg (by have := hp.pd_lt; omega)
    rw [show d.store.pdIdx.toInt = d.pdIdx from hpd]
    exact ⟨hp.ne, hp.back⟩
  have hlayout := h.layout
  have hge := h.disks_ge
  have hback := hp.back
  have hddlt := hp.dd_lt
  have hdd := hp.dd_nonneg
  have hne := hp.ne
  generalize conf.algo previous = algorithm at *
  rcases hlayout with hfour | ⟨hfive, hmem⟩
  · rw [hfour] at hd hback ⊢
    cases hd
    exact ⟨ne_last (hlast (.inl hfour)) hdd (by dsimp only at *; omega), hback⟩
  · by_cases hrot : algorithm ∈ rotating5
    · exact hkept (hmoving hfive hrot)
    rw [hfive] at hd hback ⊢
    cases algorithm with
    | parity0 =>
      cases hd
      exact ⟨hne, hback⟩
    | parityN =>
      cases hd
      exact ⟨ne_last (hlast (.inr rfl)) hdd (by dsimp only at *; omega), hback⟩
    | leftAsymmetric | rightAsymmetric | leftSymmetric | rightSymmetric =>
      exact absurd (by decide) hrot
    | _ => exact absurd hmem (by decide)

lemma Valid.level_ne (h : Valid conf previous) : conf.level ≠ .six := by
  rcases h.layout with hfour | ⟨hfive, -⟩ <;> simp [*]

/-- Where a sector is placed. -/
lemma Valid.sector_spec (h : Valid conf previous) (hg : Geometry conf previous n k)
    (hs : Addressable b conf previous sector) :
    ∃ d, raid5ComputeSector a b conf sector previous
        = some (sector / k / n * k + sector % k, d.store) ∧
      selectDisks a conf.level (conf.algo previous) (n + 1) n
        (sector / k / n : Nat) (sector / k % n : Nat) = some d ∧
      Placed conf.level (conf.algo previous) (n + 1) (sector / k % n : Nat) d := by
  have hmod : sector / k % n < n := mod_lt _ hg.data_pos
  have hn : conf.disks previous = n + 1 := by rw [hg.disks_eq, h.degraded]
  have hdisks := h.disks_lt
  have hsym := h.disks_le
  rw [hn] at hdisks hsym
  obtain ⟨d, hd, hplaced⟩ := selectDisks_spec a (n := n + 1) (j := (sector / k % n : Nat)) h.layout
    (by have := hg.data_pos; omega) hdisks hsym
    (natCast_nonneg (sector / k / n)) (natCast_nonneg _) (by omega)
  rw [Int.add_sub_cancel] at hd
  exact ⟨d, raid5ComputeSector_eq hg hs (by rw [hn]; exact hd), hd, hplaced⟩

lemma selectDisks_parity {level : Level} {m stripe j j' : Int} {d d' : Disks}
    (hlevel : level ≠ .six) (hd : selectDisks a level algorithm n m stripe j = some d)
    (hd' : selectDisks a level algorithm n m stripe j' = some d') : d.pdIdx = d'.pdIdx := by
  cases level with
  | four =>
    cases hd
    cases hd'
    rfl
  | five => cases algorithm <;> cases hd <;> cases hd' <;> rfl
  | six => exact absurd rfl hlevel

end

/-- On a level 4 or 5 array every sector is mapped to a data disk. If the parity disk
fits a `short`, this is another one, and `compute_blocknr` maps the place back to the
sector. Different sectors have different places in any case. -/
theorem raid5_mapping_bijective {a b : WordSize} {conf : Conf}
    {previous : Bool} (h : Valid conf previous) :
    (∀ sector, Addressable b conf previous sector →
      ∃ r d, raid5ComputeSector a b conf sector previous = some (r, d) ∧
        0 ≤ d.ddIdx ∧ d.ddIdx < conf.disks previous ∧
        (conf.disks previous ≤ 2 ^ 15 →
          0 ≤ d.pdIdx.toInt ∧ d.pdIdx.toInt < conf.disks previous) ∧
        (FitsShort conf previous → d.ddIdx ≠ d.pdIdx.toInt ∧ computeBlocknr a b conf
          ⟨r, conf.disks previous, d.pdIdx, d.qdIdx⟩ d.ddIdx previous = some sector)) ∧
    ∀ sector sector' r d d', Addressable b conf previous sector →
      Addressable b conf previous sector' →
      raid5ComputeSector a b conf sector previous = some (r, d) →
      raid5ComputeSector a b conf sector' previous = some (r, d') →
      d.ddIdx = d'.ddIdx → sector = sector' := by
  obtain ⟨n, k, hg⟩ := exists_geometry (by rw [h.degraded]; decide)
    (by rw [h.degraded]; exact h.disks_ge) h.disks_lt h.chunk_pos h.chunk_lt
  have hn : conf.disks previous = n + 1 := by rw [hg.disks_eq, h.degraded]
  refine ⟨fun sector hs => ?_, fun sector sector' r d d' hs hs' hd hd' hdd => ?_⟩
  · obtain ⟨d, hrun, hsel, hplaced⟩ := h.sector_spec (a := a) hg hs
    refine ⟨_, d.store, hrun, hplaced.dd_nonneg, hn ▸ hplaced.dd_lt, fun hle => ?_,
      fun hshort => ?_⟩
    · rw [show d.store.pdIdx.toInt = d.pdIdx from
        toInt_ofInt_short hplaced.pd_nonneg (by have := hplaced.pd_lt; omega), hn]
      exact ⟨hplaced.pd_nonneg, hplaced.pd_lt⟩
    · have hsub : (n : Int) + 1 - 1 = n := Int.add_sub_cancel _ _
      obtain ⟨hne, hback⟩ := hplaced.short h hshort hn (by rw [hsub]; exact hsel)
      rw [hsub, ← hn] at hback
      exact ⟨hne, computeBlocknr_eq hg hs hrun hne (fun hsix => absurd hsix h.level_ne) hback⟩
  obtain ⟨e, hrun, hsel, hplaced⟩ := h.sector_spec (a := a) hg hs
  obtain ⟨e', hrun', hsel', hplaced'⟩ := h.sector_spec (a := a) hg hs'
  rw [hrun] at hd
  rw [hrun'] at hd'
  obtain ⟨hr, rfl⟩ := Prod.mk.inj (some.inj hd)
  obtain ⟨hr', rfl⟩ := Prod.mk.inj (some.inj hd')
  -- one sector on the disks, so one stripe, so one parity disk
  have hplace := hr.trans hr'.symm
  have hstripe : sector / k / n = sector' / k / n := by
    rw [← stripe_eq hg.chunk_pos (sector / k / n) sector, hplace, stripe_eq hg.chunk_pos]
  rw [hstripe] at hsel
  have hpd := selectDisks_parity h.level_ne hsel hsel'
  -- and one chunk of the stripe
  have hback := hplaced.back
  rw [hpd, show e.ddIdx = e'.ddIdx from hdd, hplaced'.back] at hback
  have hindex : sector' / k % n = sector / k % n := by exact_mod_cast some.inj hback
  have hoffset : sector % k = sector' % k := by
    rw [hstripe] at hplace
    exact Nat.add_left_cancel hplace
  have hchunk : sector / k = sector' / k := by
    rw [← div_add_mod' (sector / k) n, ← div_add_mod' (sector' / k) n, hstripe, hindex]
  rw [← div_add_mod' sector k, ← div_add_mod' sector' k, hchunk, hoffset]

/-- Five disks with rotating parity and chunks of 64 KiB. -/
def fiveDisks : Conf := ⟨.five, .leftSymmetric, .leftSymmetric, 65536, 65536, 5, 5, 1⟩

/-- A sector in the third stripe comes back. -/
theorem raid5_mapping_bijective_fiveDisks :
    ∃ r d, raid5ComputeSector .w32 .w64 fiveDisks 1300 false = some (r, d) ∧
      d.ddIdx ≠ d.pdIdx.toInt ∧
      computeBlocknr .w32 .w64 fiveDisks ⟨r, 5, d.pdIdx, d.qdIdx⟩ d.ddIdx false = some 1300 := by
  have h : Valid fiveDisks false :=
    ⟨by decide, rfl, by decide, by decide, by decide, by decide, by decide⟩
  have hs : Addressable .w64 fiveDisks false 1300 := ⟨by decide, by decide⟩
  obtain ⟨r, d, hrun, -, -, -, hback⟩ := (raid5_mapping_bijective (a := .w32) h).1 1300 hs
  exact ⟨r, d, hrun, hback ⟨by decide, by decide⟩⟩

/-- One disk more than a `short` can count. -/
def manyDisks : Conf :=
  ⟨.five, .leftAsymmetric, .leftAsymmetric, 512, 512, 2 ^ 15 + 1, 2 ^ 15 + 1, 1⟩

/-- The parity disk of the first stripe is kept as a negative one, and `compute_blocknr`
does not map the second chunk back. -/
theorem manyDisks_not_mapped :
    raid5ComputeSector .w64 .w64 manyDisks 1 false
        = some (0, ⟨BitVec.ofInt 16 (-2 ^ 15), BitVec.ofInt 16 (-1), 1, false⟩) ∧
      computeBlocknr .w64 .w64 manyDisks
        ⟨0, 2 ^ 15 + 1, BitVec.ofInt 16 (-2 ^ 15), BitVec.ofInt 16 (-1)⟩ 1 false = some 0 :=
  ⟨by decide, by decide⟩

/-- Three disks of a row of `n`. -/
def Disks.Apart (n : Int) (d : Disks) : Prop :=
  (0 ≤ d.ddIdx ∧ d.ddIdx < n) ∧ (0 ≤ d.pdIdx ∧ d.pdIdx < n) ∧ (0 ≤ d.qdIdx ∧ d.qdIdx < n) ∧
    d.ddIdx ≠ d.pdIdx ∧ d.ddIdx ≠ d.qdIdx ∧ d.pdIdx ≠ d.qdIdx

/-- And as they are kept. -/
def Placement.Apart (n : Int) (d : Placement) : Prop :=
  Disks.Apart n ⟨d.pdIdx.toInt, d.qdIdx.toInt, d.ddIdx, d.ddfLayout⟩

/-- The layouts that add two disk numbers. -/
def rotating6 : List Algorithm :=
  [.leftSymmetric, .rightSymmetric, .rotatingNContinue, .leftSymmetric6, .rightSymmetric6]

-- == one stripe

/-- The chunk `i` that the way back leads to is the chunk `j` that was placed, but for one
layout. -/
structure Undone (algorithm : Algorithm) (n stripe j i : Int) : Prop where
  nonneg : 0 ≤ i
  lt : i < n - 2
  eq : algorithm ≠ .rotatingNContinue → i = j
  eq_iff : algorithm = .rotatingNContinue →
    (i = j ↔ stripe.tmod n = 0 ∨ n ≤ stripe.tmod n + 2)

lemma selectDisks6_spec (a : WordSize) {algorithm : Algorithm} {n stripe j : Int} (hn : 4 ≤ n)
    (hn' : n < 2 ^ 31) (hsum : algorithm ∈ rotating6 → n ≤ 2 ^ 30) (hstripe : 0 ≤ stripe)
    (hlt : stripe < 2 ^ 30) (hj : 0 ≤ j ∧ j < n - 2) :
    ∃ d i, selectDisks6 a algorithm n (n - 2) stripe j = some d ∧ d.Apart n ∧
      dataIndex6 algorithm n (n - 2) d.pdIdx d.ddIdx = some i ∧
      Undone algorithm n stripe j i := by
  have hmod : ∀ {m} x, 0 < m → 0 ≤ x → 0 ≤ Int.tmod x m ∧ x.tmod m < m :=
    fun x hm hx => ⟨tmod_nonneg _ hx, tmod_lt_of_pos x hm⟩
  have h0 := hmod stripe (show 0 < n by omega) hstripe
  have h1 := hmod stripe (show 0 < n - 1 by omega) hstripe
  have h2 := hmod (stripe + 1) (show 0 < n by omega) (by omega)
  have hnext : signed a.bits (stripe + 1) = stripe + 1 := by
    cases a
    · exact signed_eq (w := 31) (by omega) (by omega)
    · exact signed_eq (w := 63) (by omega) (by omega)
  have hplaced : algorithm ≠ .rotatingNContinue → ∀ {d : Disks} {i : Int}, d.Apart n ∧ i = j →
      d.Apart n ∧ some i = some i ∧ Undone algorithm n stripe j i := by
    rintro hne d i ⟨hapart, rfl⟩
    exact ⟨hapart, rfl, hj.1, hj.2, fun _ => rfl, fun heq => absurd heq hne⟩
  cases algorithm with
  | leftAsymmetric | rightAsymmetric | rotatingZeroRestart | rotatingNRestart =>
    -- Q follows P, or P is the last disk and Q the first
    refine ⟨_, _, rfl, hplaced (by decide) ?_⟩
    simp (disch := omega) only [Disks.Apart, hnext, int_eq]
    split
    all_goals
      simp (disch := omega) only [int_eq]
      omega
  | rotatingNContinue =>
    have hsum := hsum (by decide)
    have hcases : ∀ {d : Disks} {i : Int}, d.Apart n ∧ 0 ≤ i ∧ i < n - 2 ∧
        (i = j ↔ stripe.tmod n = 0 ∨ n ≤ stripe.tmod n + 2) → d.Apart n ∧ some i = some i ∧
        Undone .rotatingNContinue n stripe j i := by
      rintro d i ⟨hapart, hnonneg, hlt, hiff⟩
      exact ⟨hapart, rfl, hnonneg, hlt, fun hne => absurd rfl hne, fun _ => hiff⟩
    refine ⟨_, _, rfl, hcases ?_⟩
    simp (disch := omega) only [Disks.Apart, int_eq, tmod_wrap]
    omega
  | leftSymmetric | rightSymmetric | leftSymmetric6 | rightSymmetric6 =>
    have hsum := hsum (by decide)
    refine ⟨_, _, rfl, hplaced (by decide) ?_⟩
    simp (disch := omega) only [Disks.Apart, int_eq, tmod_wrap]
    omega
  | parity0 | leftAsymmetric6 | rightAsymmetric6 | parity06 =>
    refine ⟨_, _, rfl, hplaced (by decide) ?_⟩
    simp (disch := omega) only [Disks.Apart, int_eq]
    omega
  | parityN =>
    refine ⟨_, j, rfl, hplaced (by decide) ⟨?_, rfl⟩⟩
    simp (disch := omega) only [Disks.Apart, int_eq]
    omega

-- == the array

/-- A level 6 array: four or more disks, and a chunk of at least one sector. -/
structure Valid6 (conf : Conf) (previous : Bool) : Prop where
  level : conf.level = .six
  degraded : conf.maxDegraded = 2
  disks_ge : 4 ≤ conf.disks previous
  disks_lt : conf.disks previous < 2 ^ 31
  disks_le : conf.algo previous ∈ rotating6 → conf.disks previous ≤ 2 ^ 30
  chunk_pos : 0 < conf.sectorsPerChunk previous
  chunk_lt : conf.sectorsPerChunk previous < 2 ^ 31

/-- The stripe of a sector. -/
def Conf.stripe (conf : Conf) (previous : Bool) (sector : Nat) : Nat :=
  sector / (conf.sectorsPerChunk previous).toNat /
    (conf.disks previous - conf.maxDegraded).toNat

/-- A `short` holds P and Q of the stripe. -/
def ParityShort (a : WordSize) (conf : Conf) (previous : Bool) (sector : Nat) : Prop :=
  ∀ j d, 0 ≤ j ∧ j < conf.disks previous - 2 →
    selectDisks6 a (conf.algo previous) (conf.disks previous) (conf.disks previous - 2)
      (conf.stripe previous sector) j = some d → d.pdIdx < 2 ^ 15 ∧ d.qdIdx < 2 ^ 15

section

variable {a b : WordSize} {conf : Conf} {previous : Bool} {sector n k : Nat}

lemma Addressable.stripe_lt (h : Valid6 conf previous) (hs : Addressable b conf previous sector) :
    conf.stripe previous sector < 2 ^ 30 := by
  have hge := h.disks_ge
  have hlt := hs.chunk_lt
  unfold Conf.stripe
  rw [h.degraded, div_lt_iff_lt_mul (by omega)]
  have hmul : 2 ^ 30 * 2 ≤ 2 ^ 30 * (conf.disks previous - 2).toNat :=
    Nat.mul_le_mul_left _ (by omega)
  omega

/-- This is so on every array of at most `2 ^ 15` disks. -/
lemma Valid6.parityShort (h : Valid6 conf previous) (hs : Addressable b conf previous sector)
    (hle : conf.disks previous ≤ 2 ^ 15) : ParityShort a conf previous sector := by
  intro j d hj hd
  obtain ⟨d', -, hd', hapart, -⟩ := selectDisks6_spec a h.disks_ge h.disks_lt h.disks_le
    (natCast_nonneg (conf.stripe previous sector)) (by exact_mod_cast hs.stripe_lt h) hj
  obtain rfl : d = d' := some.inj (hd.symm.trans hd')
  exact ⟨hapart.2.1.2.trans_le hle, hapart.2.2.1.2.trans_le hle⟩

/-- What is kept of three disks that a `short` holds. -/
lemma Disks.Apart.store {m : Int} {d : Disks} (h : d.Apart m) (hpd : d.pdIdx < 2 ^ 15)
    (hqd : d.qdIdx < 2 ^ 15) :
    d.store.pdIdx.toInt = d.pdIdx ∧ d.store.qdIdx.toInt = d.qdIdx ∧ d.store.Apart m := by
  have hp := toInt_ofInt_short h.2.1.1 hpd
  have hq := toInt_ofInt_short h.2.2.1.1 hqd
  refine ⟨hp, hq, ?_⟩
  unfold Placement.Apart
  rw [show d.store.pdIdx.toInt = d.pdIdx from hp, show d.store.qdIdx.toInt = d.qdIdx from hq]
  exact h

/-- Chunks that are not far from each other are not the same modulo the width of
`sector_t`. -/
lemma not_dvd_of_near {bits m k : Nat} {x : Int} (hlo : -m ≤ x) (hhi : x ≤ m) (hne : x ≠ 0)
    (hk : 0 < k) (hfits : m * k < 2 ^ bits) : ¬(2 : Int) ^ bits ∣ x * k := by
  intro hdvd
  have habs : |x * (k : Int)| < 2 ^ bits := by
    calc |x * (k : Int)| = |x| * k := by rw [abs_mul, abs_of_nonneg (natCast_nonneg k)]
      _ ≤ m * k := mul_le_mul_of_nonneg_right (abs_le.mpr ⟨hlo, hhi⟩) (natCast_nonneg k)
      _ < 2 ^ bits := by exact_mod_cast hfits
  rcases mul_eq_zero.mp (eq_zero_of_abs_lt_dvd hdvd habs) with hzero | hzero <;> omega

lemma not_dvd_row {bits i j n k : Nat} (hi : i < n) (hj : j < n) (hne : i ≠ j) (hk : 0 < k)
    (hfits : n * k < 2 ^ bits) : ¬(2 : Int) ^ bits ∣ ((i : Int) - j) * k :=
  not_dvd_of_near (by omega) (by omega) (by omega) hk hfits

/-- A chunk number that is another one in the same row leads to another sector, also if it
wraps. -/
lemma other_chunk_ne (b : WordSize) {row i j n k off sector : Nat} (hi : i < n) (hj : j < n)
    (hne : i ≠ j) (hk : 0 < k) (hk' : k < 2 ^ 31) (hrow : n ≤ row) (hc : row + j < 2 ^ 31)
    (hsector : (row + j) * k + off = sector) (hlt : sector < 2 ^ b.bits) :
    unsigned b.bits (int (unsigned b.bits ((row : Int) + i)) * k + off) ≠ sector := by
  have hfits : n * k < 2 ^ b.bits := by
    have hle : n * k ≤ (row + j) * k := Nat.mul_le_mul_right k (by omega)
    omega
  have hbits : 2 ^ 32 ≤ 2 ^ b.bits := by cases b <;> decide
  have hchunk : unsigned b.bits ((row : Int) + i) = row + i := by
    rw [← natCast_add]
    exact unsigned_eq (by omega)
  obtain ⟨e, he, hint⟩ : ∃ e : Int, (e = 0 ∨ e = 1) ∧
      int ((row + i : Nat) : Int) = row + i - e * 2 ^ 32 := by
    by_cases hsmall : row + i < 2 ^ 31
    · refine ⟨0, .inl rfl, ?_⟩
      rw [int_eq (by omega) (by omega)]
      omega
    · refine ⟨1, .inr rfl, ?_⟩
      rw [int, signed_of_ge (w := 31) (by omega) (by omega)]
      omega
  rw [hchunk, hint]
  intro h
  have hdvd : (2 : Int) ^ b.bits ∣ ((i : Int) - j - e * 2 ^ 32) * k := by
    have hmod : (((row : Int) + i - e * 2 ^ 32) * k + off) % 2 ^ b.bits = sector := by
      have hnonneg := emod_nonneg (((row : Int) + i - e * 2 ^ 32) * k + off)
        (pow_ne_zero b.bits two_ne_zero)
      unfold unsigned at h
      omega
    have hdiff := dvd_self_sub_of_emod_eq hmod
    rw [← hsector] at hdiff
    push_cast at hdiff
    convert hdiff using 1
    ring
  have hother := not_dvd_row hi hj hne hk hfits
  rcases he with rfl | rfl
  · rw [zero_mul, sub_zero] at hdvd
    exact hother hdvd
  · cases b with
    | w32 =>
      have hsum : (2 : Int) ^ 32 ∣ ((i : Int) - j - 1 * 2 ^ 32) * k + 2 ^ 32 * k :=
        dvd_add hdvd (Int.dvd_mul_right (2 ^ 32) k)
      have hsame : ((i : Int) - j - 1 * 2 ^ 32) * k + 2 ^ 32 * k = ((i : Int) - j) * k := by ring
      exact hother (hsame ▸ hsum)
    | w64 =>
      have hroom : 2 ^ 33 * k < 2 ^ 64 := by omega
      exact not_dvd_of_near (m := 2 ^ 33) (by omega) (by omega) (by omega) hk hroom hdvd

/-- Then the way back is lost. -/
lemma computeBlocknr_ne (hg : Geometry conf previous n k) {d : Disks} {i : Int}
    (hs : Addressable b conf previous sector) (hstripe : 0 < sector / k / n)
    (hpd : d.ddIdx ≠ d.store.pdIdx.toInt) (hqd : d.ddIdx ≠ d.store.qdIdx.toInt)
    (hindex : dataIndex conf.level (conf.algo previous) (conf.disks previous) n
      d.store.pdIdx.toInt d.ddIdx = some i)
    (hi : 0 ≤ i ∧ i < n) (hne : i ≠ (sector / k % n : Nat)) :
    computeBlocknr a b conf ⟨sector / k / n * k + sector % k,
        conf.disks previous, d.store.pdIdx, d.store.qdIdx⟩ d.ddIdx previous ≠ some sector := by
  have hk := hg.chunk_pos
  have hoff : sector % k < k := mod_lt _ hk
  have hoffset : (sector / k / n * k + sector % k) % k = sector % k := by
    rw [mul_add_mod_self_right, mod_eq_of_lt hoff]
  obtain ⟨i, rfl⟩ := eq_ofNat_of_zero_le hi.1
  have hother : unsigned b.bits (int (unsigned b.bits
      ((sector / k / n : Nat) * (n : Int) + i)) * k + (sector % k : Nat)) ≠ sector := by
    rw [← natCast_mul]
    refine other_chunk_ne b (by exact_mod_cast hi.2) (mod_lt _ hg.data_pos) (by exact_mod_cast hne)
      hk hg.chunk_lt (Nat.le_mul_of_pos_left n hstripe) ?_ ?_ hs.sector_lt
    · rw [div_add_mod']
      exact hg.number_lt hs
    · rw [div_add_mod', div_add_mod']
  have hpos : 0 < sector := by
    rcases Nat.eq_zero_or_pos sector with rfl | hpos
    · simp at hstripe
    · exact hpos
  intro h
  unfold computeBlocknr at h
  simp only [hg.data_eq, hg.chunk_eq, sectorDiv_eq hk, stripe_eq hk, hoffset,
    bind_eq_bind, bind_some] at h
  rw [if_neg hpd, if_neg fun h => hqd h.2, hindex, bind_some,
    (fits b (lt_trans hoff hg.chunk_lt)).2.2] at h
  obtain ⟨⟨check, sh2⟩, -, hres⟩ := bind_eq_some_iff.mp h
  dsimp only at hres
  split_ifs at hres
  · exact hpos.ne (some.inj hres)
  · exact hother (some.inj hres)

end

/-- On a level 6 array a sector whose parity disks a `short` holds is mapped to three
disks, one for the data, one for P and one for Q, and `compute_blocknr` maps the place
back to the sector; with `ALGORITHM_ROTATING_N_CONTINUE` if and only if P is on one of
the disks 0, 1 and the last. -/
theorem raid6_mapping_undone_iff {a b : WordSize} {conf : Conf} {previous : Bool} {sector : Nat}
    (h : Valid6 conf previous) (hs : Addressable b conf previous sector)
    (hshort : ParityShort a conf previous sector) :
    (∃ r d, raid5ComputeSector a b conf sector previous = some (r, d) ∧
      d.Apart (conf.disks previous) ∧
      computeBlocknr a b conf ⟨r, conf.disks previous, d.pdIdx, d.qdIdx⟩ d.ddIdx previous
        = some sector) ↔
    (conf.algo previous = .rotatingNContinue →
      (conf.stripe previous sector : Int) % conf.disks previous = 0 ∨
      conf.disks previous ≤ conf.stripe previous sector % conf.disks previous + 2) := by
  have hge := h.disks_ge
  obtain ⟨n, k, hg⟩ := exists_geometry (by rw [h.degraded]; decide)
    (by rw [h.degraded]; omega) h.disks_lt h.chunk_pos h.chunk_lt
  have hn : conf.disks previous - 2 = n := by
    rw [hg.disks_eq, h.degraded, Int.add_sub_cancel]
  have hstripe : conf.stripe previous sector = sector / k / n := by
    unfold Conf.stripe
    rw [hg.chunk_eq, h.degraded, hn, toNat_natCast, toNat_natCast]
  have hlt : sector / k / n < 2 ^ 30 := hstripe ▸ hs.stripe_lt h
  have hmod : (0 : Int) ≤ (sector / k % n : Nat) ∧
      ((sector / k % n : Nat) : Int) < conf.disks previous - 2 :=
    ⟨natCast_nonneg _, by rw [hn]; exact_mod_cast mod_lt _ hg.data_pos⟩
  unfold ParityShort at hshort
  rw [hstripe] at hshort ⊢
  rw [← tmod_eq_emod_of_nonneg (natCast_nonneg _)]
  obtain ⟨d, i, hd, hapart, hback, hundone⟩ := selectDisks6_spec a hge h.disks_lt h.disks_le
    (natCast_nonneg (sector / k / n)) (by exact_mod_cast hlt) hmod
  obtain ⟨hpd, hqd, hkept⟩ := hapart.store (hshort _ d hmod hd).1 (hshort _ d hmod hd).2
  rw [hn] at hd hback
  have hrun := raid5ComputeSector_eq hg hs (by rw [h.level]; exact hd)
  have hindex : dataIndex conf.level (conf.algo previous) (conf.disks previous) n
      d.store.pdIdx.toInt d.ddIdx = some i := by
    rw [h.level, hpd]
    exact hback
  have hnep : d.ddIdx ≠ d.store.pdIdx.toInt := hpd ▸ hapart.2.2.2.1
  have hneq : d.ddIdx ≠ d.store.qdIdx.toInt := hqd ▸ hapart.2.2.2.2.1
  constructor
  · rintro ⟨r, e, hrun', -, hblock⟩ hcont
    rw [hrun] at hrun'
    obtain ⟨rfl, rfl⟩ := Prod.mk.inj (some.inj hrun')
    by_contra hbad
    have hne : i ≠ (sector / k % n : Nat) := fun heq => hbad ((hundone.eq_iff hcont).mp heq)
    have hpos : 0 < sector / k / n := by
      rcases Nat.eq_zero_or_pos (sector / k / n) with hzero | hpos
      · exact absurd (.inl (by rw [hzero]; exact zero_tmod _)) hbad
      · exact hpos
    exact computeBlocknr_ne hg hs hpos hnep hneq hindex
      ⟨hundone.nonneg, hn ▸ hundone.lt⟩ hne hblock
  · intro hcont
    have heq : i = (sector / k % n : Nat) := by
      by_cases halgo : conf.algo previous = .rotatingNContinue
      · exact (hundone.eq_iff halgo).mpr (hcont halgo)
      · exact hundone.eq halgo
    rw [heq] at hindex
    exact ⟨_, d.store, hrun, hkept, computeBlocknr_eq hg hs hrun hnep (fun _ => hneq) hindex⟩

def sixDisks : Conf := ⟨.six, .leftSymmetric, .leftSymmetric, 65536, 65536, 6, 6, 2⟩

/-- A sector in the third stripe comes back. -/
theorem sixDisks_undone : ∃ r d, raid5ComputeSector .w32 .w64 sixDisks 1300 false = some (r, d) ∧
    d.Apart 6 ∧
    computeBlocknr .w32 .w64 sixDisks ⟨r, 6, d.pdIdx, d.qdIdx⟩ d.ddIdx false = some 1300 := by
  have h : Valid6 sixDisks false :=
    ⟨rfl, rfl, by decide, by decide, by decide, by decide, by decide⟩
  have hs : Addressable .w64 sixDisks false 1300 := ⟨by decide, by decide⟩
  exact (raid6_mapping_undone_iff h hs (h.parityShort hs (by decide))).mpr (by decide)

def fourDisks : Conf := ⟨.six, .rotatingNContinue, .rotatingNContinue, 512, 512, 4, 4, 2⟩

/-- In the second stripe Q, P and the first data chunk are on the disks 1, 2
and 3, and `compute_blocknr` takes that chunk for the second one. -/
theorem fourDisks_not_undone :
    raid5ComputeSector .w32 .w64 fourDisks 2 false = some (1, ⟨2, 1, 3, true⟩) ∧
      computeBlocknr .w32 .w64 fourDisks ⟨1, 4, 2, 1⟩ 3 false = some 0 :=
  ⟨by decide, by decide⟩

end BoardStack.Raid5
