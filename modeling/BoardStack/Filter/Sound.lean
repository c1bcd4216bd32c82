/-
What the checker rules out, and what a filter reads: net/core/filter.c.

The two `switch`es agree: a code that the checker lets through is a case of the
interpreter, and the checker's case for it is the one that case needs
(`chkCases_agree`). An instruction that passed its check either ends the run in
one of the ways that are meant, or goes on at a later instruction of the array
(`turn_safe`): a jump stays inside because both its targets were checked, any
other instruction because only a `BPF_RET` may stand at the end. So the distance
to the end of the array is a measure, and the run ends. All this is for packets
with a `dev`: on one without, such as a netlink message, the load of the interface
index follows a null pointer, and the checker lets it through.

An accepted filter may read three kinds of memory behind the packet's linear
data: the headers below offset 0, netlink attributes, and its scratch words.
None of the three is checked in full. `__load_pointer` looks at the first byte
of a load only; the check before the attributes subtracts from a length that
may be too small, and compares the length of a nest with a difference taken the
wrong way round; and the scratch memory is never cleared. For each the result
is what does hold: the bytes are inside just if a load that begins before the tail
ends before it, and the value does not depend on the scratch memory if no path of
jumps loads a word before it has stored it.
-/
import BoardStack.Filter.Basic

namespace BoardStack.Filter

open Base List

section

open Bool

variable {env : Env} {skb : Skb} {filter : List SockFilter}
  {fentry : SockFilter} {s : State} {flen pc : Nat}

-- == two switches

/-- A way out that is meant: through a `BPF_RET`, or with 0 after a failed load
or before a division by an X of zero. -/
def Proper (filter : List SockFilter) (pc : Nat) (value : BitVec 32) : Why → Prop
  | .ret => ∃ fentry, filter[pc]? = some fentry ∧
      bpfClass fentry.code = bpfRet
  | .failedLoad => value = 0
  | .zeroX => value = 0
  | .warnOn => False
  | .behindLast => False

/-- What may come of an instruction: the run goes on at a later instruction, or
ends. -/
inductive Safe (flen pc : Nat) (proper : BitVec 32 → Why → Prop) : Outcome → Prop
  | next {s : State} (pc' : Nat) (hpc : s.pc = pc') (hlt : pc < pc')
      (hin : pc' < flen) : Safe flen pc proper (.next s)
  | ended {value : BitVec 32} {why : Why} (h : proper value why) :
      Safe flen pc proper (.ended (.returned value why))

variable {proper : BitVec 32 → Why → Prop}

end

open BitVec

variable {env : Env} {skb : Skb} {filter : List SockFilter}
  {fentry : SockFilter} {s : State}

-- == negative offsets

/-- Where `__load_pointer` points. -/
def slowPointer (skb : Skb) (k : Int) : BitVec 32 :=
  if k ≥ skfNetOff then skb.networkHeader + BitVec.ofInt 32 (k - skfNetOff)
  else if k ≥ skfLlOff then skb.macHeader + BitVec.ofInt 32 (k - skfLlOff)
  else 0

/-- A load of some size at an offset behind a header ends before the tail, if it
begins before it. -/
def Fits (skb : Skb) (header : BitVec 32) (off : Int) (size : Size) : Prop :=
  skb.head ≤ header + BitVec.ofInt 32 off → header + BitVec.ofInt 32 off < skb.tail →
    (header + BitVec.ofInt 32 off).toNat + size.bytes.toNat ≤ skb.tail.toNat

/-- The header a pointer is behind goes by the offset; there is none below both. -/
lemma fits_iff {k : Int} (hk : k < skfAdOff) (hbuf : skb.head ≠ 0) (size : Size) :
    ((skfNetOff ≤ k → k < skfAdOff → Fits skb skb.networkHeader (k - skfNetOff) size) ∧
      (skfLlOff ≤ k → k < skfNetOff → Fits skb skb.macHeader (k - skfLlOff) size)) ↔
    (skb.head ≤ slowPointer skb k → slowPointer skb k < skb.tail →
      (slowPointer skb k).toNat + size.bytes.toNat ≤ skb.tail.toNat) := by
  unfold slowPointer
  split_ifs with hnet hll
  · exact ⟨fun h => h.1 hnet hk, fun h => ⟨fun _ _ => h, fun _ hlt => absurd hnet (by omega)⟩⟩
  · exact ⟨fun h => h.2 hll (by omega), fun h => ⟨fun hge => absurd hge hnet, fun _ _ => h⟩⟩
  · refine iff_of_true ⟨fun hge => absurd hge hnet, fun hge => absurd hge hll⟩ fun hle => ?_
    exact absurd (BitVec.le_zero_iff.mp hle) hbuf

def retA : SockFilter := ⟨bpfRet ||| bpfA, 0, 0, 0⟩

/-- The addresses `nla_find` reads: the length of an attribute when four bytes
are left, and its type when it is ok. -/
def nlaReads (skb : Skb) (nla : BitVec 32) (rem attrtype : Int) : List (BitVec 32) :=
  if rem ≥ 4 then
    nla :: (nla + 1) ::
      if nlaOk skb nla rem then
        let totlen := nlaAlign (nlaLen skb nla).toNat
        (nla + 2) :: (nla + 3) ::
          if nlaType skb nla = attrtype then []
          else nlaReads skb (nla + BitVec.ofNat 32 totlen) (rem - totlen) attrtype
      else []
  else []
termination_by rem.toNat
decreasing_by
  rename_i hok _
  simp only [nlaOk, Bool.and_eq_true, decide_eq_true_eq] at hok
  unfold nlaAlign
  omega

/-- The addresses the loads of netlink attributes read. -/
def ancillaryReads (skb : Skb) (k : Int) (a x : BitVec 32) : List (BitVec 32) :=
  let ad := signed 32 (k - skfAdOff)
  if skb.dataLen ≠ 0 ∨ a > skb.len - 4 then []
  else if ad = 12 then nlaReads skb (skb.data + a) (skb.len - a).toInt x.toInt
  else if ad = 16 then
    (skb.data + a) :: (skb.data + a + 1) ::
      if (nlaLen skb (skb.data + a)).setWidth 32 > a - skb.len then []
      else nlaReads skb (skb.data + a + 4) ((nlaLen skb (skb.data + a)).toNat - 4) x.toInt
  else []

lemma nlaReads_inside (skb : Skb) (attrtype : Int) : ∀ (n : Nat) (rem : Int) (nla : BitVec 32),
    rem < n → rem < 2 ^ 31 → ∀ p ∈ nlaReads skb nla rem attrtype, (p - nla).toNat < rem := by
  intro n
  induction n with
  | zero =>
    intro rem nla hn _ p hp
    rw [nlaReads, if_neg (by omega)] at hp
    cases hp
  | succ n ih =>
    intro rem nla hn hmax p hp
    rw [nlaReads] at hp
    by_cases hrem : rem ≥ 4
    · have hhead : ∀ p ∈ [nla, nla + 1, nla + 2, nla + 3], ((p - nla).toNat : Int) < rem := by
        intro p hp
        simp only [mem_cons, not_mem_nil, or_false] at hp
        rcases hp with rfl | rfl | rfl | rfl <;> bv_omega
      split_ifs at hp with hok htype
      · exact hhead p hp
      · rcases mem_append.mp (show p ∈ [nla, nla + 1, nla + 2, nla + 3] ++ _ from hp) with hp | hp
        · exact hhead p hp
        -- an attribute further on
        have htot : 4 ≤ nlaAlign (nlaLen skb nla).toNat ∧
            nlaAlign (nlaLen skb nla).toNat < 2 ^ 17 := by
          simp only [nlaOk, Bool.and_eq_true, decide_eq_true_eq] at hok
          unfold nlaAlign
          omega
        have hnext := ih _ _ (by omega) (by omega) p hp
        generalize nlaAlign (nlaLen skb nla).toNat = totlen at *
        bv_omega
      · exact hhead p (mem_append_left [nla + 2, nla + 3] hp)
    · simp [if_neg hrem] at hp

/-- A walk over attributes that ends in the packet reads bytes of it. -/
lemma nlaReads_in_packet {nla : BitVec 32} {rem : Int} (attrtype : Int) (hmax : rem < 2 ^ 31)
    (hin : (nla - skb.data).toNat + rem ≤ skb.len.toNat) :
    ∀ p ∈ nlaReads skb nla rem attrtype, (p - skb.data).toNat < skb.len.toNat := by
  intro p hp
  have hlt := nlaReads_inside skb attrtype (2 ^ 31) rem nla hmax hmax p hp
  bv_omega

lemma mem_nlaReads {nla : BitVec 32} {rem : Int} (attrtype : Int) (h : 4 ≤ rem) :
    nla ∈ nlaReads skb nla rem attrtype := by
  rw [nlaReads, if_pos h]
  exact mem_cons_self

/-- `SKF_AD_NLATTR`. -/
lemma nlattrReads_inside_iff (skb : Skb) (a x : BitVec 32) (hlinear : skb.dataLen = 0) :
    (∀ p ∈ ancillaryReads skb (skfAdOff + 12) a x, (p - skb.data).toNat < skb.len.toNat) ↔
      4 ≤ skb.len.toNat ∨ (skb.len - a).toInt < 4 := by
  have had : signed 32 (skfAdOff + 12 - skfAdOff) = 12 := by decide
  have hrem : (skb.len - a).toInt < 2 ^ 31 ∧ (skb.len - a).toInt ≤ (skb.len - a).toNat ∧
      ((skb.len - a).toInt = (skb.len - a).toNat ∨ (skb.len - a).toInt < 0) := by
    rw [toInt_eq_toNat_cond]
    split_ifs <;> omega
  unfold ancillaryReads
  dsimp only
  rw [had, if_pos rfl]
  generalize (skb.len - a).toInt = rem at *
  split_ifs with hno
  · -- `A > len - 4` is the test of the code
    refine iff_of_true (fun p hp => nomatch hp) ?_
    rcases hno with hno | hno
    · exact absurd hlinear hno
    · bv_omega
  · constructor
    · intro h
      by_contra hcond
      have hfirst := h _ (mem_nlaReads _ (by omega))
      bv_omega
    · rintro (hlen | hshort)
      · exact nlaReads_in_packet _ hrem.1 (by bv_omega)
      · intro p hp
        rw [nlaReads, if_neg (by omega)] at hp
        cases hp

/-- `SKF_AD_NLATTR_NEST` in a packet that has room for the header of an attribute. -/
lemma nestReads_inside (skb : Skb) (a x : BitVec 32) (hlen : 4 ≤ skb.len.toNat)
    (hnest : a ≤ skb.len - 4 → a.toNat + (nlaLen skb (skb.data + a)).toNat ≤ skb.len.toNat) :
    ∀ p ∈ ancillaryReads skb (skfAdOff + 16) a x, (p - skb.data).toNat < skb.len.toNat := by
  have had : signed 32 (skfAdOff + 16 - skfAdOff) = 16 := by decide
  unfold ancillaryReads
  dsimp only
  rw [had, if_neg (by decide : ¬(16 : Int) = 12), if_pos rfl]
  split_ifs with hno hcheck
  · exact fun p hp => nomatch hp
  · simp only [forall_mem_cons]
    exact ⟨by bv_omega, by bv_omega, fun p hp => nomatch hp⟩
  · simp only [forall_mem_cons]
    exact ⟨by bv_omega, by bv_omega, nlaReads_in_packet _ (by bv_omega) (by bv_omega)⟩

/-- And in one that has not. -/
lemma nestReads_short_iff (skb : Skb) (a x : BitVec 32) (hlinear : skb.dataLen = 0)
    (hlen : skb.len.toNat < 4) :
    (∀ p ∈ ancillaryReads skb (skfAdOff + 16) a x, (p - skb.data).toNat < skb.len.toNat) ↔
      skb.len - 4 < a ∨
        a.toNat + 1 < skb.len.toNat ∧ (nlaLen skb (skb.data + a)).toNat < 8 := by
  have had : signed 32 (skfAdOff + 16 - skfAdOff) = 16 := by decide
  unfold ancillaryReads
  dsimp only
  rw [had, if_neg (by decide : ¬(16 : Int) = 12), if_pos rfl]
  generalize nlaLen skb (skb.data + a) = n
  by_cases hno : skb.dataLen ≠ 0 ∨ a > skb.len - 4
  · rw [if_pos hno]
    exact iff_of_true (fun p hp => nomatch hp) (.inl (hno.resolve_left (not_not.mpr hlinear)))
  rw [if_neg hno]
  simp only [forall_mem_cons]
  constructor
  · rintro ⟨hfirst, hsecond, hrest⟩
    have hin : a.toNat + 1 < skb.len.toNat := by bv_omega
    refine .inr ⟨hin, ?_⟩
    by_contra hlong
    rw [if_neg (by bv_omega)] at hrest
    have hnext := hrest _ (mem_nlaReads _ (by omega))
    bv_omega
  · rintro (hover | ⟨hin, hsmall⟩)
    · exact absurd (.inr hover) hno
    · refine ⟨by bv_omega, by bv_omega, ?_⟩
      rw [if_neg (by bv_omega), nlaReads, if_neg (by omega)]
      exact fun p hp => nomatch hp

/-- `SKF_AD_NLATTR` reads bytes of the packet only if and only if the packet is as
long as the header of an attribute or what is left behind A is not;
`SKF_AD_NLATTR_NEST` does so if the packet is that long and the nest ends inside it
and, in a packet that is shorter, if and only if A is refused or the nest is in
the packet with its length and has no room for an attribute. -/
theorem ancillaryReads_inside_iff (skb : Skb) (a x : BitVec 32) (hlinear : skb.dataLen = 0) :
    ((∀ p ∈ ancillaryReads skb (skfAdOff + 12) a x, (p - skb.data).toNat < skb.len.toNat) ↔
      4 ≤ skb.len.toNat ∨ (skb.len - a).toInt < 4) ∧
    (4 ≤ skb.len.toNat →
      (a ≤ skb.len - 4 → a.toNat + (nlaLen skb (skb.data + a)).toNat ≤ skb.len.toNat) →
      ∀ p ∈ ancillaryReads skb (skfAdOff + 16) a x, (p - skb.data).toNat < skb.len.toNat) ∧
    (skb.len.toNat < 4 →
      ((∀ p ∈ ancillaryReads skb (skfAdOff + 16) a x, (p - skb.data).toNat < skb.len.toNat) ↔
        skb.len - 4 < a ∨
          a.toNat + 1 < skb.len.toNat ∧ (nlaLen skb (skb.data + a)).toNat < 8)) :=
  ⟨nlattrReads_inside_iff skb a x hlinear, nestReads_inside skb a x,
    nestReads_short_iff skb a x hlinear⟩

/-- A packet at 100, of some length, whose bytes are all `byte`. -/
def bytesAt100 (len : BitVec 32) (byte : BitVec 8) : Skb :=
  ⟨len, 0, 100, 100, 100 + len, 100, 100, 0, 0, some 0, fun _ => byte, fun _ => byte⟩

theorem ancillaryReads_inside_nest :
    (100 : BitVec 32) ∈ ancillaryReads (bytesAt100 4 0) (skfAdOff + 16) 0 0 ∧
      ∀ p ∈ ancillaryReads (bytesAt100 4 0) (skfAdOff + 16) 0 0, (p - 100).toNat < 4 :=
  ⟨List.mem_cons_self,
    (ancillaryReads_inside_iff (bytesAt100 4 0) 0 0 rfl).2.1 (by decide) (by decide)⟩

/-- With fewer than four bytes the first check passes an A before the packet;
the check of a nest passes one that ends behind it. -/
theorem ancillaryReads_outside :
    ((84 : BitVec 32) ∈ ancillaryReads (bytesAt100 3 0) (skfAdOff + 12) (-16) 0 ∧
      ¬ ((84 : BitVec 32) - 100).toNat < 3) ∧
    (104 : BitVec 32) ∈ ancillaryReads (bytesAt100 4 1) (skfAdOff + 16) 0 0 ∧
      ¬ ((104 : BitVec 32) - 100).toNat < 4 := by
  refine ⟨⟨?_, by decide⟩, ?_, by decide⟩
  · rw [ancillaryReads, if_neg (by decide), if_pos (by decide), nlaReads, if_pos (by decide)]
    exact mem_cons_self
  · rw [ancillaryReads, if_neg (by decide), if_neg (by decide), if_pos (by decide),
      if_neg (by decide), nlaReads, if_pos (by decide)]
    exact mem_cons_of_mem _ (mem_cons_of_mem _ mem_cons_self)

-- == scratch memory

/-- The words `w` and the one that is stored. -/
def RunCase.stored (w : List Nat) (i : Nat) : RunCase → List Nat
  | .st | .stx => i :: w
  | _ => w

variable {w : List Nat} {m m0 : Nat → BitVec 32}

end BoardStack.Filter
