/-
Any sequence of allocations and releases in a page keeps its free list.

The invariant (`Inv`) gives the blocks of the list and relates them to memory,
to the counter and to the blocks handed out. An allocation passes the blocks that
cannot hold it (`allocLoop_spec`), splits the one it finds and takes units from
its front; a release finds the two blocks around the one given back
(`findLoop_spec`) and merges.
-/
import BoardStack.Slob.FreeList

namespace BoardStack.Slob

open Base List Option

variable {base size align s n u d : Nat} {p p' : Page} {mem : Mem}
  {blocks l l1 l2 : List Block} {live live1 live2 : List Live} {a : Live}
variable {after front : List Block} {b : Nat}

structure Inv (base : Nat) (p : Page) (blocks : List Block) (live : List Live) : Prop where
  holds : Holds p.mem pageUnits blocks
  layout : Layout blocks
  apart : Apart blocks
  free : blocks ≠ [] → p.free = first pageUnits blocks
  units : p.units = ((blocks.map Prod.snd).sum : Nat)
  onList : p.onList = true ↔ blocks ≠ []
  inside : ∀ a ∈ live, 1 ≤ unitsOf a.size ∧
    a.off + unitsOf a.size ≤ pageUnits ∧ Aligned base a.align a.off
  clear : ∀ a ∈ live, ∀ b ∈ blocks, b.1 + b.2 ≤ a.off ∨ a.off + unitsOf a.size ≤ b.1
  disjoint : live.Pairwise fun a b =>
    a.off + unitsOf a.size ≤ b.off ∨ b.off + unitsOf b.size ≤ a.off

lemma int_eq {x : Int} (hlo : -2 ^ 31 ≤ x) (hhi : x < 2 ^ 31) : int x = x := signed_eq hlo hhi

-- == alignment

lemma Request.units_eq (h : Request size align) :
    size ≤ 2 * unitsOf size ∧ 2 * unitsOf size ≤ size + 1 := by
  have hlt := h.size_lt
  unfold unitsOf
  omega

lemma Request.units_pos (h : Request size align) : 1 ≤ unitsOf size := by
  have hpos := h.pos
  have hunits := h.units_eq
  omega

lemma delta_spec (hbase : 2 ∣ base) (h : Request size align) (s : Nat) :
    ∃ d : Nat, delta base align s = d ∧ d < 2 ^ 30 ∧ Aligned base align (s + d) ∧
      ∀ off, s ≤ off → Aligned base align off → s + d ≤ off := by
  unfold delta Aligned
  rcases h.align_eq with rfl | ⟨k, hk, hpow⟩
  · exact ⟨0, rfl, by decide, .inl rfl, fun off hoff _ => hoff⟩
  have hpos : 0 < align := by
    rw [hpow]
    exact Nat.pow_pos (by decide)
  have hbig : align ≤ 2 ^ 30 := by
    rw [hpow]
    exact Nat.pow_le_pow_right (by decide) hk
  have heven : align = 1 ∨ 2 ∣ align := by
    cases k with
    | zero => exact .inl hpow
    | succ k => exact .inr ⟨2 ^ k, by rw [hpow, pow_succ, mul_comm]⟩
  -- the next multiple
  have hdiv := Nat.div_add_mod (base + 2 * s + (align - 1)) align
  have hmod := Nat.mod_lt (base + 2 * s + (align - 1)) hpos
  have hup : alignUp (base + 2 * s) align
      = align * ((base + 2 * s + (align - 1)) / align) := mul_comm _ _
  generalize (base + 2 * s + (align - 1)) / align = q at hdiv hup
  generalize (base + 2 * s + (align - 1)) % align = r at hdiv hmod
  have heven' : 2 ∣ align * q - (base + 2 * s) := by
    rcases heven with rfl | hdvd
    · omega
    · have : 2 ∣ align * q := dvd_trans hdvd (dvd_mul_right align q)
      omega
  obtain ⟨d, hd⟩ := heven'
  have haddr : base + 2 * (s + d) = align * q := by omega
  refine ⟨d, ?_, by omega, .inr ⟨q, haddr⟩, ?_⟩
  · rw [if_neg (by omega)]
    dsimp only
    rw [hup, int_eq (by omega) (by omega)]
    omega
  rintro off hoff (hzero | ⟨m, hm⟩)
  · omega
  -- no multiple lies between
  by_contra hlt
  have hqm : m + 1 ≤ q := by
    by_contra hle
    have := Nat.mul_le_mul_left align (by omega : q ≤ m)
    omega
  have hstep := Nat.mul_le_mul_left align hqm
  rw [mul_add, mul_one] at hstep
  omega

lemma fits_iff (hbase : 2 ∣ base) (h : Request size align) (s n : Nat) :
    ∃ d : Nat, delta base align s = d ∧ Aligned base align (s + d) ∧
      (CanHold base size align (s, n) ↔ d + unitsOf size ≤ n) ∧
      ((n : Int) ≥ int (unitsOf size + delta base align s) ↔ d + unitsOf size ≤ n) := by
  obtain ⟨d, hd, hlt, haligned, hleast⟩ := delta_spec hbase h s
  have hsize := h.size_lt
  have hunits := h.units_eq
  refine ⟨d, hd, haligned, ⟨?_, ?_⟩, ?_⟩
  · rintro ⟨off, hoff, hal, hfit⟩
    have := hleast off hoff hal
    omega
  · intro hfit
    exact ⟨s + d, by dsimp only; omega, haligned, by dsimp only; omega⟩
  · rw [hd, int_eq (by omega) (by omega)]
    omega

-- == allocation

/-- The block that an allocation finds, cut at the aligned address. -/
def foundAt (base align : Nat) (p : Page) (front : List Block) (s n : Nat) :
    Found :=
  fragmentHead ⟨p.mem, prevOf front, s, n⟩ (delta base align s)

lemma allocLoop_spec (hbase : 2 ∣ base) (hreq : Request size align)
    (holds : Holds p.mem pageUnits blocks) (hlayout : Layout blocks)
    (rest : List Block) : ∀ before fuel, blocks = before ++ rest → rest ≠ [] →
      (∀ b ∈ before, ¬CanHold base size align b) → rest.length < fuel →
      (∀ b ∈ blocks, ¬CanHold base size align b) ∧
        allocLoop base (unitsOf size) align p fuel (prevOf before)
          (first pageUnits rest) = some (p, none) ∨
      ∃ front s n after, blocks = front ++ (s, n) :: after ∧ CanHold base size align (s, n) ∧
        allocLoop base (unitsOf size) align p fuel (prevOf before) (first pageUnits rest)
          = some (takeUnits p (foundAt base align p front s n) (unitsOf size),
            some (foundAt base align p front s n).cur) := by
  induction rest with
  | nil => exact fun _ _ _ hne => absurd rfl hne
  | cons b rest ih =>
    obtain ⟨s, n⟩ := b
    intro before fuel hblocks _ hnone hfuel
    rw [length_cons] at hfuel
    rcases fuel with _ | fuel
    · omega
    subst hblocks
    obtain ⟨hunits, hnext, hlast⟩ := Holds.read before holds hlayout
    obtain ⟨d, -, -, hcan, htest⟩ := fits_iff hbase hreq s n
    show _ ∧ allocLoop _ _ _ p (fuel + 1) (prevOf before) s = _ ∨ ∃ front s' n' after, _ ∧ _ ∧
        allocLoop _ _ _ p (fuel + 1) (prevOf before) s = _
    rw [allocLoop]
    rw [hunits, hnext]
    by_cases hfit : d + unitsOf size ≤ n
    · rw [if_pos (htest.mpr hfit)]
      exact .inr ⟨before, s, n, rest, rfl, hcan.mpr hfit, rfl⟩
    have hnone' : ∀ b ∈ before ++ [(s, n)], ¬CanHold base size align b := by
      exact forall_mem_append.mpr ⟨hnone, forall_mem_singleton.mpr fun h => hfit (hcan.mp h)⟩
    rw [if_neg fun h => hfit (htest.mp h)]
    by_cases hrest : rest = []
    · rw [if_pos (hlast.mpr hrest)]
      subst hrest
      exact .inl ⟨hnone', rfl⟩
    · rw [if_neg fun h => hrest (hlast.mp h)]
      have hprev : some s = prevOf (before ++ [(s, n)]) := by simp [prevOf]
      rw [hprev]
      exact ih (before ++ [(s, n)]) fuel (by simp) hrest hnone' (by omega)

lemma fragmentHead_spec (h : Holds mem pageUnits (front ++ (s, n) :: after))
    (hl : Layout (front ++ (s, n) :: after)) (hd : d < n) :
    ∃ f, fragmentHead ⟨mem, prevOf front, s, n⟩ d = f ∧
      f.prev = prevOf (front ++ part s d) ∧ f.cur = s + d ∧
      f.avail = (n - d : Nat) ∧
      Holds f.mem pageUnits ((front ++ part s d) ++ (s + d, n - d) :: after) := by
  obtain ⟨hunits, hnext, -⟩ := Holds.read front h hl
  obtain ⟨hpos, hle, hbefore, hafter, hlt, hle'⟩ := hl.around
  refine ⟨_, rfl, ?_⟩
  by_cases hzero : d = 0
  · subst hzero
    rw [show part s 0 = [] from rfl, append_nil]
    exact ⟨rfl, rfl, rfl, h⟩
  rw [part_pos (by omega : 1 ≤ d)]
  unfold fragmentHead
  rw [if_pos (by omega)]
  dsimp only
  have haligned : ((s : Int) + (d : Int)).toNat = s + d := by omega
  have havail : (n : Int) - d = (n - d : Nat) := by omega
  rw [hnext, haligned, havail]
  -- the second part is written first
  obtain ⟨hfront, -, hrest⟩ := holds_append.mp h
  have henc : Enc (setSlob (setSlob mem (s + d) (n - d : Nat)
      (first pageUnits after)) s d (s + d)) (s + d) (n - d)
      (first pageUnits after) := by
    apply (enc_setSlob mem (by omega) (by omega) (by omega) hle').congr (by omega)
    intro i hi _
    exact setSlob_frame (by omega)
  have hframe : ∀ i, i < s ∨ s + n ≤ i → setSlob (setSlob mem (s + d)
      (n - d : Nat) (first pageUnits after)) s d (s + d) i = mem i := by
    intro i hi
    rw [setSlob_frame (by omega), setSlob_frame (by omega)]
  refine ⟨by simp [prevOf], rfl, henc.units (by omega), ?_⟩
  rw [append_assoc, holds_append]
  refine ⟨hfront.congr hl.left.pos ?_, ?_, henc, hrest.congr ?_ ?_⟩
  · intro b hb i _ hi
    have := hbefore b hb
    exact hframe i (by omega)
  · exact enc_setSlob _ (by omega) (by omega) (by omega) (by omega)
  · exact (hl.right.sublist (sublist_cons_self _ _)).pos
  · intro b hb i hi _
    have := hafter b hb
    exact hframe i (by omega)

lemma takeUnits_spec {f : Found} (hprev : f.prev = prevOf front) (hcur : f.cur = s)
    (havail : f.avail = n) (h : Holds f.mem pageUnits (front ++ (s, n) :: after))
    (hl : Layout (front ++ (s, n) :: after)) (hfree : p.free = first s front) (hpos : 1 ≤ u)
    (hu : u ≤ n) :
    Holds (takeUnits p f u).mem pageUnits (front ++ (part (s + u) (n - u) ++ after)) ∧
      (takeUnits p f u).free = first pageUnits (front ++ (part (s + u) (n - u) ++ after)) := by
  obtain ⟨-, hnext, -⟩ := Holds.read front h hl
  obtain ⟨-, hle, hbefore, hafter, hlt, hle'⟩ := hl.around
  obtain ⟨hfront, -, hrest⟩ := holds_append.mp h
  have hpos' := (hl.right.sublist (sublist_cons_self _ _)).pos
  unfold takeUnits
  dsimp only
  rw [hcur, havail, hprev, hnext]
  by_cases hexact : n = u
  · rw [if_pos (by omega), hexact, Nat.sub_self, show part (s + u) 0 = [] from rfl, nil_append]
    obtain ⟨h1, h2, h3⟩ := relink_spec hfront hl.left hfree hle'
    rw [holds_append, first_append]
    refine ⟨⟨h1, hrest.congr hpos' ?_⟩, h2⟩
    intro b hb i hi _
    have := hafter b hb
    apply h3
    intro c hc
    have := hbefore c hc
    omega
  · rw [if_neg (by omega), part_pos (by omega : 1 ≤ n - u)]
    have hend : s + u ≤ pageUnits := by omega
    obtain ⟨h1, h2, h3⟩ := relink_spec hfront hl.left hfree hend
    have hleft : (n : Int) - u = (n - u : Nat) := by omega
    dsimp only
    rw [hleft, singleton_append, holds_append, first_append]
    refine ⟨⟨h1.congr hl.left.pos ?_, ?_, hrest.congr hpos' ?_⟩, h2⟩
    · intro b hb i _ hi
      have := hbefore b hb
      exact setSlob_frame (by omega)
    · exact enc_setSlob _ (by omega) (by omega) (by omega) hle'
    intro b hb i hi _
    have := hafter b hb
    rw [setSlob_frame (by omega)]
    apply h3
    intro c hc
    have := hbefore c hc
    omega

lemma Layout.carve (hl : Layout (front ++ (s, n) :: after))
    (hapart : Apart (front ++ (s, n) :: after)) (hu : 1 ≤ u) (hfit : d + u ≤ n) :
    Layout ((front ++ part s d) ++ (s + d, n - d) :: after) ∧
      Layout (front ++ ((part s d ++ part (s + d + u) (n - d - u)) ++ after)) ∧
      Apart (front ++ ((part s d ++ part (s + d + u) (n - d - u)) ++ after)) := by
  refine ⟨?_, hl.cut (by omega) (by omega), pairwise_cut 1 hapart (by omega) (by omega)⟩
  have hcut := hl.cut (d := d) le_rfl (by omega : s + d + (n - d) ≤ s + n)
  rw [part_pos (by omega : 1 ≤ n - d)] at hcut
  simpa using hcut

lemma Inv.take (hbase : 2 ∣ base) (h : Inv base p blocks live) (hreq : Request size align)
    (hblocks : blocks = front ++ (s, n) :: after) (hcan : CanHold base size align (s, n)) :
    ∃ blocks', Inv base (takeUnits p (foundAt base align p front s n) (unitsOf size)) blocks'
      (⟨(foundAt base align p front s n).cur, size, align⟩ :: live) := by
  obtain ⟨d, hd, haligned, hiff, -⟩ := fits_iff hbase hreq s n
  have hfit := hiff.mp hcan
  have hpos := hreq.units_pos
  have hunits := h.units
  have hfree := h.free (by rw [hblocks]; simp)
  have hon := h.onList.mpr (by rw [hblocks]; simp)
  have hclear := h.clear
  subst hblocks
  obtain ⟨hn, hle, hbefore, hafter, -⟩ := h.layout.around
  obtain ⟨hcutlayout, hlayout, hapart⟩ := h.layout.carve h.apart hpos hfit
  obtain ⟨f, hf, hprev, hcur, havail, hcut⟩ := fragmentHead_spec h.holds h.layout (by omega : d < n)
  have hfound : foundAt base align p front s n = f := by
    unfold foundAt
    rw [hd]
    exact hf
  have hfree' : p.free = first (s + d) (front ++ part s d) := by
    rw [hfree, first_append, first_append]
    by_cases hzero : d = 0
    · rw [hzero]
      rfl
    · rw [part_pos (by omega : 1 ≤ d)]
      rfl
  obtain ⟨hnew, hnewfree⟩ := takeUnits_spec hprev hcur havail hcut hcutlayout
    hfree' hpos (by omega : unitsOf size ≤ n - d)
  rw [append_assoc, ← append_assoc (part s d)] at hnew hnewfree
  rw [hfound]
  have hsum : ((front ++ ((part s d
      ++ part (s + d + unitsOf size) (n - d - unitsOf size)) ++ after)).map
        Prod.snd).sum + unitsOf size
      = ((front ++ (s, n) :: after).map Prod.snd).sum := by
    simp only [map_append, sum_append, sum_part, map_cons, sum_cons]
    omega
  generalize hmid : part s d ++ part (s + d + unitsOf size) (n - d - unitsOf size) = mid at *
  have hleft : idx (p.units - unitsOf size)
      = (((front ++ (mid ++ after)).map Prod.snd).sum : Nat) := by
    have hbound := hlayout.sum_le
    have hlt := pageUnits_lt
    rw [hunits, idx_eq] <;> omega
  refine ⟨front ++ (mid ++ after), hnew, hlayout, hapart, fun _ => hnewfree, hleft, ?_, ?_, ?_, ?_⟩
  · show (if idx (p.units - unitsOf size) = 0 then false else p.onList) = true ↔ _
    rw [hleft, hon, ne_eq, ← sum_eq_zero_iff hlayout]
    split_ifs with hz
    · exact iff_of_false (by simp) fun hne => hne (by exact_mod_cast hz)
    · exact iff_of_true rfl fun hne => hz (by exact_mod_cast hne)
  · refine forall_mem_cons.mpr ⟨⟨hpos, ?_, ?_⟩, h.inside⟩
    · dsimp only
      omega
    · rw [hcur]
      exact haligned
  · -- the new block lies between the two parts
    intro a ha b hb
    have hparts : b ∈ mid → b.1 + b.2 ≤ s + d ∧ s ≤ b.1 ∨
        s + d + unitsOf size ≤ b.1 ∧ b.1 + b.2 ≤ s + n := by
      intro hb
      rw [← hmid] at hb
      rcases mem_append.mp hb with hb | hb
      · obtain ⟨rfl, -⟩ := mem_part hb
        exact .inl ⟨le_rfl, le_rfl⟩
      · obtain ⟨rfl, -⟩ := mem_part hb
        omega
    simp only [mem_append] at hb
    rcases mem_cons.mp ha with rfl | ha
    · dsimp only
      rw [hcur]
      rcases hb with hb | hb | hb
      · have := hbefore b hb
        omega
      · have := hparts hb
        omega
      · have := hafter b hb
        omega
    · have hwhole := hclear a ha (s, n) (by simp)
      rcases hb with hb | hb | hb
      · exact hclear a ha b (by simp [hb])
      · have := hparts hb
        omega
      · exact hclear a ha b (by simp [hb])
  · refine pairwise_cons.mpr ⟨?_, h.disjoint⟩
    intro a ha
    have hwhole := hclear a ha (s, n) (by simp)
    dsimp only at hwhole ⊢
    omega

lemma slobPageAlloc_spec (hbase : 2 ∣ base) (h : Inv base p blocks live)
    (hreq : Request size align) (hne : p.units ≠ 0) :
    (∀ b ∈ blocks, ¬CanHold base size align b) ∧ slobPageAlloc base p size align = some (p, none) ∨
    (∃ b ∈ blocks, CanHold base size align b) ∧ ∃ p' off blocks',
      slobPageAlloc base p size align = some (p', some off) ∧
      Inv base p' blocks' (⟨off, size, align⟩ :: live) := by
  have hblocks : blocks ≠ [] := by
    rintro rfl
    exact hne h.units
  have hlen := h.layout.length_le
  unfold slobPageAlloc
  rw [h.free hblocks]
  rcases allocLoop_spec hbase hreq h.holds h.layout blocks [] (pageUnits + 1) rfl
      hblocks (by simp) (by omega) with
    hnone | ⟨front, s, n, after, hsplit, hcan, hrun⟩
  · exact .inl hnone
  · obtain ⟨blocks', hinv⟩ := h.take hbase hreq hsplit hcan
    refine .inr ⟨⟨(s, n), ?_, hcan⟩, _, _, blocks', hrun, hinv⟩
    rw [hsplit]
    simp

-- == release

lemma exists_sides (hl : Layout l) (hclear : ∀ c ∈ l, c.1 + c.2 ≤ b ∨ b + u ≤ c.1) :
    ∃ front after, l = front ++ after ∧ (∀ c ∈ front, c.1 + c.2 ≤ b) ∧
      ∀ c ∈ after, b + u ≤ c.1 := by
  induction l with
  | nil => exact ⟨[], [], rfl, by simp, by simp⟩
  | cons c l ih =>
    have hord := pairwise_cons.mp hl.ordered
    rcases hclear c mem_cons_self with hbefore | hafter
    · obtain ⟨front, after, rfl, hfront, hafter⟩ :=
        ih (hl.sublist (sublist_cons_self c l)) fun d hd => hclear d (mem_cons_of_mem c hd)
      refine ⟨c :: front, after, rfl, ?_, hafter⟩
      exact forall_mem_cons.mpr ⟨hbefore, hfront⟩
    · refine ⟨[], c :: l, rfl, by simp, ?_⟩
      refine forall_mem_cons.mpr ⟨hafter, fun d hd => ?_⟩
      have := hord.1 d hd
      omega

lemma findLoop_spec (mid : List Block) (hafter : b ≤ first pageUnits after) : ∀ fuel front s n,
      Holds mem pageUnits (front ++ (s, n) :: (mid ++ after)) →
      Layout (front ++ (s, n) :: (mid ++ after)) →
      (∀ c ∈ mid, c.1 + c.2 ≤ b) → mid.length < fuel →
      findLoop mem b fuel s (first pageUnits (mid ++ after))
        = some (((mid.getLast?).getD (s, n)).1, first pageUnits after) := by
  induction mid with
  | nil =>
    intro fuel front s n _ _ _ hfuel
    rcases fuel with _ | fuel
    · omega
    rw [findLoop, if_neg (by simpa using hafter)]
    rfl
  | cons c mid ih =>
    obtain ⟨s', n'⟩ := c
    intro fuel front s n h hl hmid hfuel
    rw [length_cons] at hfuel
    rcases fuel with _ | fuel
    · omega
    have hlist : front ++ (s, n) :: ((s', n') :: mid ++ after)
        = (front ++ [(s, n)]) ++ (s', n') :: (mid ++ after) := by simp
    rw [hlist] at h hl
    obtain ⟨-, hnext, -⟩ := Holds.read _ h hl
    obtain ⟨hpos, -⟩ := hl.around
    have hc := hmid (s', n') mem_cons_self
    show findLoop mem b (fuel + 1) s s' = _
    rw [findLoop, if_pos (by omega), hnext, ih fuel (front ++ [(s, n)]) s' n' h hl
        (fun d hd => hmid d (mem_cons_of_mem _ hd)) (by omega)]
    cases mid with
    | nil => rfl
    | cons d mid => simp [List.getLast?_cons]

lemma findFrom_spec (hafter : b ≤ first pageUnits after)
    (h : Holds mem pageUnits ((front ++ [(s, n)]) ++ after))
    (hl : Layout ((front ++ [(s, n)]) ++ after)) (hfront : ∀ c ∈ front ++ [(s, n)], c.1 + c.2 ≤ b) :
    ¬b < first pageUnits ((front ++ [(s, n)]) ++ after) ∧ findLoop mem b (pageUnits + 1)
          (first pageUnits ((front ++ [(s, n)]) ++ after))
          (slobNext mem (first pageUnits ((front ++ [(s, n)]) ++ after)))
        = some (s, first pageUnits after) := by
  have hlen := hl.left.length_le
  obtain ⟨⟨s', n'⟩, mid, hcons⟩ := exists_cons_of_ne_nil (concat_ne_nil (s, n) front)
  have hlast := congrArg getLast? hcons
  rw [getLast?_concat, getLast?_cons] at hlast
  rw [hcons] at h hl hfront hlen ⊢
  rw [length_cons] at hlen
  have hnext : slobNext mem s' = first pageUnits (mid ++ after) := (Holds.read [] h hl).2.1
  have hs := hfront (s', n') mem_cons_self
  refine ⟨?_, ?_⟩
  · show ¬b < s'
    omega
  · show findLoop mem b (pageUnits + 1) s' (slobNext mem s') = _
    rw [hnext, findLoop_spec mid hafter (pageUnits + 1) [] s' n' h hl
      (fun d hd => hfront d (mem_cons_of_mem _ hd)) (by omega), ← some.inj hlast]

/-- What the block grows by on its right: the block that it touches there. -/
lemma exists_right (front : List Block) (hapart : Apart after) (hl : Layout (front ++ after))
    (h : Holds mem pageUnits (front ++ after))
    (hafter : ∀ c ∈ after, b + u ≤ c.1) (hb : b + u ≤ pageUnits) :
    ∃ m right, after = part (b + u) m ++ right ∧
      (∀ c ∈ right, b + u + m < c.1) ∧ b + u + m ≤ pageUnits ∧
      (if after ≠ [] ∧ (b : Int) + u = first pageUnits after
          then ((u : Int) + slobUnits mem (first pageUnits after),
            slobNext mem (first pageUnits after))
          else ((u : Int), first pageUnits after))
      = (((u + m : Nat) : Int), first pageUnits right) := by
  cases after with
  | nil => exact ⟨0, [], rfl, by simp, hb, if_neg fun h => h.1 rfl⟩
  | cons c right =>
    obtain ⟨c, k⟩ := c
    have hc := hafter (c, k) mem_cons_self
    have hcross := (pairwise_cons.mp hapart).1
    obtain ⟨hpos, hle, -⟩ := hl.around
    show ∃ m right', _ ∧ _ ∧ _ ∧ (if _ ∧ (b : Int) + u = c then _ else _) = _
    by_cases htouch : b + u = c
    · obtain ⟨hunits, hnext, -⟩ := Holds.read front h hl
      refine ⟨k, right, ?_, ?_, by omega, ?_⟩
      · rw [part_pos hpos, htouch]
        rfl
      · intro d hd
        have := hcross d hd
        omega
      · rw [if_pos ⟨cons_ne_nil _ _, by omega⟩]
        show ((u : Int) + slobUnits mem c, slobNext mem c) = _
        rw [hunits, hnext, Int.natCast_add]
    · refine ⟨0, (c, k) :: right, rfl, ?_, by omega, if_neg (by omega)⟩
      refine forall_mem_cons.mpr ⟨by dsimp only; omega, fun d hd => ?_⟩
      have := hcross d hd
      omega

lemma holds_setSlob {k : Nat} {right : List Block} (mem : Mem) (hk : 1 ≤ k)
    (hle : b + k ≤ pageUnits) (h : Holds mem pageUnits right)
    (hl : Layout right) (hright : ∀ c ∈ right, b + k < c.1) :
    Holds (setSlob mem b k (first pageUnits right)) pageUnits ((b, k) :: right) := by
  refine ⟨enc_setSlob mem (by omega) (by omega) hk hl.first_le, h.congr hl.pos ?_⟩
  intro c hc i hi _
  have := hright c hc
  exact setSlob_frame (by omega)

/-- The block is put in behind the block at `s`, and merged with both
neighbours if it touches them. -/
lemma insertBlock_spec (hu : 1 ≤ u) (h : Holds mem pageUnits ((front ++ [(s, n)]) ++ after))
    (hl : Layout ((front ++ [(s, n)]) ++ after)) (hapart : Apart ((front ++ [(s, n)]) ++ after))
    (hs : s + n ≤ b) (hafter : ∀ c ∈ after, b + u ≤ c.1) (hb : b + u ≤ pageUnits) :
    ∃ k m left right, front ++ [(s, n)] = left ++ part (b - k) k ∧
      after = part (b + u) m ++ right ∧ k ≤ b ∧ b + u + m ≤ pageUnits ∧
      (∀ c ∈ left, c.1 + c.2 < b - k) ∧ (∀ c ∈ right, b + u + m < c.1) ∧
      Holds (insertBlock mem b u s (first pageUnits after)) pageUnits
        (left ++ (b - k, k + (u + m)) :: right) := by
  have hsplit : (front ++ [(s, n)]) ++ after = front ++ (s, n) :: after := by simp
  obtain ⟨hright1, hright2, -⟩ := pairwise_append.mp hapart
  obtain ⟨m, right, hright, hfar, hend, hmerge⟩ := exists_right _ hright2 hl h hafter hb
  rw [hsplit] at h hl
  obtain ⟨hunits, -, hlast⟩ := Holds.read front h hl
  obtain ⟨hpos, hle, hbefore, hbehind, -⟩ := hl.around
  obtain ⟨hfront, -, hrest⟩ := holds_append.mp h
  have hlr : Layout right := by
    refine (hl.right.sublist (sublist_cons_self _ _)).sublist ?_
    rw [hright]
    exact sublist_append_right _ _
  have hholds : Holds mem pageUnits right := by
    rw [hright, holds_append] at hrest
    exact hrest.2
  -- the block, merged with the one behind it
  have hfirst : (if ¬slobLast mem s ∧ (b : Int) + u = first pageUnits after
      then setSlob mem b (u + slobUnits mem (first pageUnits after))
        (slobNext mem (first pageUnits after))
      else setSlob mem b u (first pageUnits after))
      = setSlob mem b (u + m : Nat) (first pageUnits right) := by
    have hwrite := congrArg (fun x : Int × Nat => setSlob mem b x.1 x.2) hmerge
    rw [apply_ite fun x : Int × Nat => setSlob mem b x.1 x.2] at hwrite
    rw [if_congr (and_congr_left' (not_congr hlast)) rfl rfl]
    exact hwrite
  have hnew := holds_setSlob (b := b) mem (by omega : 1 ≤ u + m)
    (by omega) hholds hlr fun c hc => by
      have := hfar c hc
      omega
  have hframe : ∀ i, i < b → setSlob mem b (u + m : Nat) (first pageUnits right) i
      = mem i := fun i hi => setSlob_frame (by omega)
  have hunits' : slobUnits (setSlob mem b (u + m : Nat) (first pageUnits right)) s = n := by
    have henc := (holds_append.mp h).2.1
    apply (henc.congr hpos fun i _ hi => hframe i ?_).units hpos
    omega
  have hfront' : ∀ {mem'}, (∀ i, i < s → mem' i = mem i) → Holds mem' s front := by
    intro mem' hsame
    refine hfront.congr hl.left.pos fun c hc i _ hi => hsame i ?_
    have := hbefore c hc
    omega
  have hnext : 1 ≤ first pageUnits right := le_first (by omega) fun c hc => by
    have := hfar c hc
    omega
  unfold insertBlock
  dsimp only
  rw [hfirst, hunits']
  by_cases htouch : s + n = b
  · -- the block in front grows
    have hread := hnew.1.units (by omega)
    have hread' := hnew.1.next_eq (by omega) (by omega : b < pageUnits) hnext hlr.first_le
    dsimp only at hread hread'
    have hbk : b - n = s := by omega
    refine ⟨n, m, front, right, ?_, hright, by omega, hend, ?_, hfar, ?_⟩
    · rw [part_pos hpos, hbk]
    · intro c hc
      have := (pairwise_append.mp hright1).2.2 c hc (s, n) (by simp)
      omega
    rw [if_pos (by omega), hread, hread', hbk, holds_append]
    have hsize : ((u + m : Nat) : Int) + n = (n + (u + m) : Nat) := by omega
    rw [hsize]
    refine ⟨hfront' ?_, holds_setSlob _ (by omega) (by omega) hnew.2 hlr ?_⟩
    · intro i hi
      rw [setSlob_frame (by omega), hframe i (by omega)]
    · intro c hc
      have := hfar c hc
      omega
  · refine ⟨0, m, front ++ [(s, n)], right, ?_, hright, by omega, hend, ?_, hfar, ?_⟩
    · rw [show part (b - 0) 0 = [] from rfl, append_nil]
    · refine forall_mem_append.mpr ⟨fun c hc => ?_, forall_mem_singleton.mpr (by dsimp only; omega)⟩
      have := hbefore c hc
      omega
    rw [if_neg (by omega), Nat.sub_zero, zero_add, append_assoc, holds_append]
    refine ⟨hfront' ?_, ?_, hnew.congr ?_ ?_⟩
    · intro i hi
      rw [setSlob_frame (by omega), hframe i (by omega)]
    · exact enc_setSlob _ (by omega) (by omega) hpos (by omega)
    · exact forall_mem_cons.mpr ⟨by dsimp only; omega, hlr.pos⟩
    intro c hc i hi _
    refine setSlob_frame ⟨by omega, hpos, ?_⟩
    rcases mem_cons.mp hc with rfl | hc
    · omega
    · have := hfar c hc
      omega

/-- The invariant after a release: the block handed out and the blocks that it
touches have become one. -/
lemma Inv.release (b u k m : Nat) (left right : List Block)
    (h : Inv base p blocks (live1 ++ a :: live2)) (hoff : a.off = b) (hsize : unitsOf a.size = u)
    (hblocks : blocks = (left ++ part (b - k) k) ++ (part (b + u) m ++ right)) (hk : k ≤ b)
    (hend : b + u + m ≤ pageUnits) (hleft : ∀ c ∈ left, c.1 + c.2 < b - k)
    (hright : ∀ c ∈ right, b + u + m < c.1)
    (holds : Holds p'.mem pageUnits (left ++ (b - k, k + (u + m)) :: right))
    (hfree : p'.free = first pageUnits (left ++ (b - k, k + (u + m)) :: right))
    (hunits : p'.units = p.units + u) (hon : p'.onList = true) :
    Inv base p' (left ++ (b - k, k + (u + m)) :: right) (live1 ++ live2) := by
  subst hblocks
  have hmem : ∀ c, c ∈ left ∨ c ∈ right → c ∈ (left ++ part (b - k) k)
      ++ (part (b + u) m ++ right) := by
    intro c hc
    simp only [mem_append]
    tauto
  have hpos : 1 ≤ u := hsize ▸ (h.inside a (by simp)).1
  have hsub : (left ++ right).Sublist ((left ++ part (b - k) k) ++ (part (b + u) m ++ right)) :=
    (sublist_append_left _ _).append (sublist_append_right _ _)
  have hapart : Apart (left ++ (b - k, k + (u + m)) :: right) := by
    have hold := List.Pairwise.sublist hsub h.apart
    unfold Apart
    rw [pairwise_append] at hold ⊢
    rw [pairwise_cons]
    refine ⟨hold.1, ⟨fun c hc => ?_, hold.2.1⟩, fun c hc d hd => ?_⟩
    · have := hright c hc
      omega
    · rcases mem_cons.mp hd with rfl | hd
      · exact hleft c hc
      · exact hold.2.2 c hc d hd
  have hold := h.layout.sublist hsub
  have hlayout : Layout (left ++ (b - k, k + (u + m)) :: right) :=
    ⟨forall_mem_append.mpr ⟨hold.left.pos, forall_mem_cons.mpr ⟨by dsimp only; omega,
      hold.right.pos⟩⟩, forall_mem_append.mpr ⟨hold.left.le, forall_mem_cons.mpr
      ⟨by dsimp only; omega, hold.right.le⟩⟩, hapart.ordered⟩
  refine ⟨holds, hlayout, hapart, fun _ => hfree, ?_, ?_, ?_, ?_, ?_⟩
  · rw [hunits, h.units]
    simp only [map_append, sum_append, sum_part, map_cons, sum_cons]
    omega
  · rw [hon]
    simp
  · intro c hc
    refine h.inside c ?_
    simp only [mem_append, mem_cons] at hc ⊢
    tauto
  · intro c hc d hd
    have hc' : c ∈ live1 ++ a :: live2 := by
      simp only [mem_append, mem_cons] at hc ⊢
      tauto
    rcases mem_append.mp hd with hd | hd
    · exact h.clear c hc' d (hmem d (.inl hd))
    rcases mem_cons.mp hd with rfl | hd
    · -- it is clear of the three parts, which have no gap
      have hw := (h.inside c hc').1
      have hself : c.off + unitsOf c.size ≤ b ∨ b + u ≤ c.off := by
        have hpair := h.disjoint
        rw [pairwise_append, pairwise_cons] at hpair
        rw [← hsize, ← hoff]
        rcases mem_append.mp hc with hc | hc
        · exact hpair.2.2 c hc a mem_cons_self
        · exact (hpair.2.1.1 c hc).symm
      have hk' : k = 0 ∨ b ≤ c.off ∨ c.off + unitsOf c.size ≤ b - k := by
        by_cases hzero : k = 0
        · exact .inl hzero
        have := h.clear c hc' (b - k, k) (by
          rw [part_pos (by omega : 1 ≤ k)]
          simp)
        omega
      have hm' : m = 0 ∨ b + u + m ≤ c.off ∨ c.off + unitsOf c.size ≤ b + u := by
        by_cases hzero : m = 0
        · exact .inl hzero
        have := h.clear c hc' (b + u, m) (by
          rw [part_pos (by omega : 1 ≤ m)]
          simp)
        dsimp only at this
        omega
      dsimp only
      omega
    · exact h.clear c hc' d (hmem d (.inr hd))
  · refine h.disjoint.sublist ?_
    exact (sublist_cons_self _ _).append_left _

section

variable {b : Nat} {front after : List Block}
  (h : Inv base p blocks (live1 ++ a :: live2)) (hoff : a.off = b)
  (hsize : unitsOf a.size = u) (hu : 1 ≤ u) (hb : b + u ≤ pageUnits)
include h hoff hsize hu hb

lemma Inv.releaseFull (hempty : blocks = []) :
    ∃ blocks', Inv base ⟨setSlob p.mem b u (pageStart (b + pageUnits)), u, b,
      true⟩ blocks' (live1 ++ live2) := by
  have hend : pageStart (b + pageUnits) = first pageUnits [] := by
    unfold pageStart
    rw [Nat.add_mod_right, Nat.mod_eq_of_lt (by omega), Nat.add_sub_cancel_left]
    rfl
  have hunits : (u : Int) = p.units + u := by
    rw [h.units, hempty]
    exact (zero_add _).symm
  have hparts : blocks = ([] ++ part (b - 0) 0) ++ (part (b + u) 0 ++ []) := by
    rw [hempty]
    rfl
  have hnew : Holds (setSlob p.mem b u (first pageUnits [])) pageUnits
      ([] ++ (b - 0, 0 + (u + 0)) :: []) := by
    rw [Nat.sub_zero, zero_add, add_zero]
    exact holds_setSlob _ hu hb trivial ⟨by simp, by simp, .nil⟩ (by simp)
  rw [hend]
  -- what was written is not looked at again
  generalize setSlob p.mem b u (first pageUnits []) = mem at hnew ⊢
  exact ⟨_, h.release b u 0 0 [] [] hoff hsize hparts (Nat.zero_le _) hb (by simp)
    (by simp) hnew rfl hunits rfl⟩

lemma Inv.releaseFirst (hempty : blocks ≠ []) (hafter : ∀ c ∈ blocks, b + u ≤ c.1) :
    b < first pageUnits blocks ∧ ∃ blocks', ∀ x : Int × Nat,
      x = (if (b : Int) + u = first pageUnits blocks
          then ((u : Int) + slobUnits p.mem (first pageUnits blocks),
            slobNext p.mem (first pageUnits blocks)) else ((u : Int), first pageUnits blocks)) →
      Inv base ⟨setSlob p.mem b x.1 x.2, p.units + u, b, true⟩ blocks' (live1 ++ live2) := by
  obtain ⟨m, right, hright, hfar, hend, hmerge⟩ :=
    exists_right [] h.apart h.layout h.holds hafter hb
  have holds := h.holds
  have hlayout := h.layout
  rw [hright] at holds hlayout
  have hnew : Holds (setSlob p.mem b (u + m : Nat) (first pageUnits right))
      pageUnits ([] ++ (b - 0, 0 + (u + m)) :: right) := by
    rw [Nat.sub_zero, zero_add]
    refine holds_setSlob _ (by omega) (by omega) (holds_append.mp holds).2
      hlayout.right fun c hc => ?_
    have := hfar c hc
    omega
  have hparts : blocks = ([] ++ part (b - 0) 0) ++ (part (b + u) m ++ right) := by
    rw [hright]
    rfl
  have hlow := le_first hb hafter
  refine ⟨by omega, [] ++ (b - 0, 0 + (u + m)) :: right, ?_⟩
  rintro x rfl
  rw [if_congr (and_iff_right hempty) rfl rfl] at hmerge
  rw [hmerge]
  generalize setSlob p.mem b (u + m : Nat) (first pageUnits right) = mem at hnew ⊢
  exact h.release b u 0 m [] right hoff hsize hparts (Nat.zero_le _) hend
    (by simp) hfar hnew rfl rfl rfl

lemma Inv.releaseBehind (hsplit : blocks = (front ++ [(s, n)]) ++ after)
    (hfront : ∀ c ∈ front ++ [(s, n)], c.1 + c.2 ≤ b) (hafter : ∀ c ∈ after, b + u ≤ c.1) :
    ∃ blocks', Inv base ⟨insertBlock p.mem b u s (first pageUnits after),
      p.units + u, first pageUnits blocks, true⟩ blocks' (live1 ++ live2) := by
  have holds := h.holds
  have hlayout := h.layout
  have hapart := h.apart
  rw [hsplit] at holds hlayout hapart
  have hs := hfront (s, n) (by simp)
  obtain ⟨k, m, left, right, hk, hright, hkb, hend, hleft, hfar, hnew⟩ :=
    insertBlock_spec hu holds hlayout hapart hs hafter hb
  have hparts : blocks = (left ++ part (b - k) k) ++ (part (b + u) m ++ right) := by
    rw [hsplit, hk, ← hright]
  have hstart : first pageUnits blocks
      = first pageUnits (left ++ (b - k, k + (u + m)) :: right) := by
    rw [hsplit, hk]
    cases left with
    | nil =>
      have hkpos : 1 ≤ k := by
        by_contra hzero
        rw [show k = 0 by omega] at hk
        simp [part] at hk
      rw [part_pos hkpos]
      rfl
    | cons c left => rfl
  generalize insertBlock p.mem b u s (first pageUnits after) = mem at hnew ⊢
  exact ⟨_, h.release b u k m left right hoff hsize hparts hkb hend hleft hfar hnew hstart rfl rfl⟩

lemma freeUnits_spec : freeUnits p b u = some none ∨ ∃ p' blocks',
    freeUnits p b u = some (some p') ∧ Inv base p' blocks' (live1 ++ live2) := by
  have hpage : pageUnits = 2048 := rfl
  have hsum := h.layout.sum_le
  have hleft : idx (p.units + u) = p.units + u := by
    rw [h.units]
    apply idx_eq <;> omega
  obtain ⟨front, after, hsplit, hfront, hafter⟩ := exists_sides h.layout
    (hsize ▸ hoff ▸ h.clear a (by simp))
  unfold freeUnits
  rw [hleft]
  by_cases hall : p.units + u = pageUnits
  · rw [if_pos hall]
    exact .inl rfl
  rw [if_neg hall]
  right
  by_cases hempty : blocks = []
  · have hfull : p.onList = false := by
      rw [Bool.eq_false_iff]
      exact fun hon => h.onList.mp hon hempty
    obtain ⟨blocks', hinv⟩ := h.releaseFull hoff hsize hu hb hempty
    rw [hfull, Bool.not_false, if_pos rfl]
    exact ⟨_, blocks', rfl, hinv⟩
  have hon := h.onList.mpr hempty
  have hfree := h.free hempty
  rw [hfree, hon, Bool.not_true, if_neg Bool.false_ne_true]
  rcases eq_nil_or_concat' front with rfl | ⟨front, ⟨s, n⟩, rfl⟩
  · obtain ⟨hlow, blocks', hinv⟩ := h.releaseFirst hoff hsize hu hb hempty (hsplit ▸ hafter)
    rw [if_pos hlow]
    exact ⟨_, blocks', rfl, hinv _ rfl⟩
  obtain ⟨blocks', hinv⟩ := h.releaseBehind hoff hsize hu hb hsplit hfront hafter
  have hnext := le_first hb hafter
  obtain ⟨hlow, hfind⟩ := findFrom_spec (by omega) (hsplit ▸ h.holds) (hsplit ▸ h.layout) hfront
  rw [← hsplit] at hlow hfind
  rw [if_neg hlow, hfind, map_some]
  exact ⟨_, blocks', rfl, hinv⟩

end

lemma slobFree_spec (h : Inv base p blocks (live1 ++ a :: live2)) :
    slobFree p a.off a.size = some none ∨ ∃ p' blocks', slobFree p a.off a.size = some (some p') ∧
      Inv base p' blocks' (live1 ++ live2) := by
  obtain ⟨hu, hb, -⟩ := h.inside a (by simp)
  have hlt := pageUnits_lt
  have hidx : idx (unitsOf a.size) = unitsOf a.size := idx_eq (by omega) (by omega)
  unfold slobFree
  rw [hidx]
  exact freeUnits_spec h rfl rfl hu hb

-- == runs

lemma Inv.new (base : Nat) (mem : Mem) : Inv base (newPage mem) [(0, pageUnits)] [] := by
  have hpage : pageUnits = 2048 := rfl
  have hunits : idx pageUnits = ((([(0, pageUnits)] : List Block).map Prod.snd).sum : Nat) := by
    rw [idx_eq (by omega) (by omega)]
    simp
  have hnew : Holds (setSlob mem 0 pageUnits pageUnits) pageUnits [(0, pageUnits)] :=
    ⟨enc_setSlob mem (by omega) le_rfl (by omega) le_rfl, trivial⟩
  unfold newPage
  generalize setSlob mem 0 pageUnits pageUnits = mem at hnew ⊢
  exact ⟨hnew, ⟨by simp [hpage], by simp, pairwise_singleton _ _⟩,
    pairwise_singleton _ _, fun _ => rfl, hunits, by simp, by simp, by simp, .nil⟩

lemma Inv.write {i : Nat} {x : Int} (h : Inv base p blocks live)
    (hi : ∀ b ∈ blocks, i < b.1 ∨ b.1 + b.2 ≤ i) :
    Inv base { p with mem := Function.update p.mem i x } blocks live := by
  refine ⟨h.holds.congr h.layout.pos ?_, h.layout, h.apart, h.free, h.units,
    h.onList, h.inside, h.clear, h.disjoint⟩
  intro b hb j hj hj'
  have := hi b hb
  exact Function.update_of_ne (by omega) _ _

lemma Inv.freeBlocks_eq (h : Inv base p blocks live) : freeBlocks p = blocks := by
  unfold freeBlocks
  by_cases hempty : blocks = []
  · rw [if_neg fun hon => h.onList.mp hon hempty, hempty]
  · rw [if_pos (h.onList.mpr hempty), h.free hempty]
    exact walk_eq h.holds h.layout hempty pageUnits h.layout.length_le

lemma Reached.inv (hbase : 2 ∣ base) (h : Reached base p live) :
    ∃ blocks, Inv base p blocks live := by
  induction h with
  | new mem => exact ⟨_, .new base mem⟩
  | alloc size align _ hreq hne hrun ih =>
    obtain ⟨blocks, hinv⟩ := ih
    rcases slobPageAlloc_spec hbase hinv hreq hne with
      ⟨-, hres⟩ | ⟨-, p', off, blocks', hres, hinv'⟩
    · obtain ⟨rfl, rfl⟩ := Prod.ext_iff.mp (some.inj (hres.symm.trans hrun))
      exact ⟨blocks, hinv⟩
    · obtain ⟨rfl, rfl⟩ := Prod.ext_iff.mp (some.inj (hres.symm.trans hrun))
      exact ⟨blocks', hinv'⟩
  | free live1 live2 a _ hrun ih =>
    obtain ⟨blocks, hinv⟩ := ih
    rcases slobFree_spec hinv with hres | ⟨p', blocks', hres, hinv'⟩
    · simp [hres] at hrun
    · rw [hres] at hrun
      obtain rfl := some.inj (some.inj hrun)
      exact ⟨blocks', hinv'⟩
  | write i x _ hi ih =>
    obtain ⟨blocks, hinv⟩ := ih
    refine ⟨blocks, hinv.write fun b hb => ?_⟩
    rcases hi with hi | ⟨a, ha, hlo, hhi⟩
    · have := hinv.layout.le b hb
      omega
    · have := hinv.clear a ha b hb
      omega

/-- The free list is sound: after every sequence of calls in which a request
is made of a page with free units, the list goes up in address, its blocks are
in the page and do not touch, their units are counted, and the blocks handed out
are aligned and overlap neither each other nor a free one. A request fails
exactly if no free block can hold it, and a release finds its place. -/
theorem free_list_sound (hbase : 4096 ∣ base) (h : Reached base p live) :
    (freeBlocks p).Pairwise (fun a b => a.1 + a.2 < b.1) ∧
      (∀ a ∈ freeBlocks p, 1 ≤ a.2 ∧ a.1 + a.2 ≤ pageUnits) ∧
      p.units = (((freeBlocks p).map Prod.snd).sum : Nat) ∧
      (∀ a ∈ live, Aligned base a.align a.off ∧ a.off + unitsOf a.size ≤ pageUnits ∧
        ∀ b ∈ freeBlocks p, b.1 + b.2 ≤ a.off ∨ a.off + unitsOf a.size ≤ b.1) ∧
      live.Pairwise (fun a b => a.off + unitsOf a.size ≤ b.off ∨ b.off + unitsOf b.size ≤ a.off) ∧
      (∀ size align, Request size align → p.units ≠ 0 →
        ∃ p' off, slobPageAlloc base p size align = some (p', off) ∧
          (off = none ↔ ¬∃ b ∈ freeBlocks p, CanHold base size align b)) ∧
      ∀ a ∈ live, ∃ r, slobFree p a.off a.size = some r := by
  have hbase' : 2 ∣ base := dvd_trans ⟨2048, rfl⟩ hbase
  obtain ⟨blocks, hinv⟩ := h.inv hbase'
  rw [hinv.freeBlocks_eq]
  refine ⟨hinv.apart, fun a ha => ⟨hinv.layout.pos a ha, hinv.layout.le a ha⟩,
    hinv.units, ?_, hinv.disjoint, ?_, ?_⟩
  · intro a ha
    obtain ⟨-, hin, haligned⟩ := hinv.inside a ha
    exact ⟨haligned, hin, hinv.clear a ha⟩
  · intro size align hreq hne
    rcases slobPageAlloc_spec hbase' hinv hreq hne with
      ⟨hnone, hres⟩ | ⟨hsome, p', off, -, hres, -⟩
    · exact ⟨p, none, hres, iff_of_true rfl fun ⟨b, hb, hcan⟩ => hnone b hb hcan⟩
    · exact ⟨p', some off, hres, iff_of_false (by simp) (not_not_intro hsome)⟩
  · intro a ha
    obtain ⟨live1, live2, rfl⟩ := append_of_mem ha
    rcases slobFree_spec hinv with hres | ⟨p', -, hres, -⟩
    · exact ⟨none, hres⟩
    · exact ⟨some p', hres⟩

/-- Six bytes of a new page, aligned to eight. -/
theorem firstBlock_sound :
    ∃ p off, slobPageAlloc 4096 (newPage fun _ => 0) 6 8 = some (p, some off) ∧
      Reached 4096 p [⟨off, 6, 8⟩] ∧ Aligned 4096 8 off ∧
      ∃ r, slobFree p off 6 = some r := by
  have hreq : Request 6 8 := ⟨by decide, by decide, .inr ⟨3, by decide, rfl⟩⟩
  have hnew : Reached 4096 (newPage fun _ => 0) [] := .new _
  obtain ⟨-, -, -, -, -, halloc, -⟩ := free_list_sound ⟨1, rfl⟩ hnew
  obtain ⟨p, off, hrun, hiff⟩ := halloc 6 8 hreq (by decide)
  have hcan : ∃ b ∈ freeBlocks (newPage fun _ => 0), CanHold 4096 6 8 b := by
    rw [(Inv.new 4096 fun _ => 0).freeBlocks_eq]
    exact ⟨(0, pageUnits), by simp, 0, le_rfl, .inr ⟨512, rfl⟩, by decide⟩
  cases off with
  | none => exact absurd hcan (hiff.mp rfl)
  | some off =>
    have hnext : Reached 4096 p [⟨off, 6, 8⟩] := .alloc 6 8 hnew hreq (by decide) hrun
    obtain ⟨-, -, -, hlive, -, -, hfree⟩ := free_list_sound ⟨1, rfl⟩ hnext
    have haligned := (hlive ⟨off, 6, 8⟩ mem_cons_self).1
    have hrelease := hfree ⟨off, 6, 8⟩ mem_cons_self
    exact ⟨p, off, hrun, hnext, haligned, hrelease⟩

/-- A size for which the number of units leaves the range of `size_t` is handed
out although nothing can hold it; and a page without free units hands out memory
of the next page. -/
theorem huge_and_full_handed_out :
    ((slobPageAlloc 4096 (newPage fun _ => 0) 4294967295 0).map Prod.snd = some (some 0) ∧
      ∀ b ∈ freeBlocks (newPage fun _ => 0), ¬CanHold 4096 4294967295 0 b) ∧
    ∃ p, slobPageAlloc 4096 (newPage fun _ => 0) 4096 0 = some (p, some 0) ∧ p.units = 0 ∧
      (slobPageAlloc 4096 p 2 0).map Prod.snd = some (some pageUnits) := by
  refine ⟨⟨by decide, ?_⟩, _, rfl, by decide, by decide⟩
  rw [(Inv.new 4096 fun _ => 0).freeBlocks_eq]
  rintro b hb ⟨off, -, -, hfit⟩
  rw [mem_singleton.mp hb] at hfit
  have hpage : pageUnits = 2048 := rfl
  omega

end BoardStack.Slob
