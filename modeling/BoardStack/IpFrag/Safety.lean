/-
What holds of a queue whatever it is sent.

Each function that touches the chain gets one lemma. A queued skb is only
ever cut at its front (`Rear`), so that what holds of its bytes and of where
it ends is inherited. `eatNext` leaves rears of what it was given, takes from
`meat` what it takes from the chain, whether it goes through or not, and
leaves nothing in front of `stop` if it does.

The invariant: the fragments are in order and disjoint, `meat` is the number
of their bytes, none of them reaches beyond `len`, and each byte is a byte
that arrived for its position. A fragment that is refused half-way, after
`len` was changed or after others were dropped for it, keeps it too.
Completeness is decided by comparing `meat` with `len`; disjoint fragments
below `len` that have `len` bytes leave no hole.
-/
import BoardStack.Base.Segments
import BoardStack.IpFrag.Basic
import BoardStack.Base.Run

namespace BoardStack.IpFrag

open Base List

-- == skbs

lemma Skb.length_bytes (s : Skb) : s.bytes.length = s.len := length_append

/-- An skb without some of its first bytes, but not without all of them. -/
structure Rear (s s₀ : Skb) (i : Nat) : Prop where
  lt : i < s₀.len
  offset : s.offset = s₀.offset + i
  bytes : s.bytes = s₀.bytes.drop i
  pulled : s.pulled.length = s₀.pulled.length + i

lemma Rear.refl {s : Skb} (h : 0 < s.len) : Rear s s 0 := ⟨h, rfl, rfl, rfl⟩

variable {i : Nat}

lemma Rear.len {s s₀ : Skb} (h : Rear s s₀ i) : s.len = s₀.len - i := by
  rw [← Skb.length_bytes, h.bytes, length_drop, Skb.length_bytes]

lemma Rear.stop {s s₀ : Skb} (h : Rear s s₀ i) : s.offset + s.len = s₀.offset + s₀.len := by
  have := h.len
  have := h.lt
  have := h.offset
  omega

lemma pskbPull_spec {ok : Bool} {s s' : Skb} (h : pskbPull ok s i = some s') :
    i ≤ s.len ∧ s'.offset = s.offset ∧ s'.ihl = s.ihl ∧ s'.bytes = s.bytes.drop i ∧
      s'.pulled.length = s.pulled.length + i := by
  unfold pskbPull at h
  split at h
  · cases h
  rename_i hlen
  split at h
  · cases h
  · cases h
    have hle := not_lt.mp hlen
    refine ⟨hle, rfl, rfl, drop_append.symm, ?_⟩
    rw [length_append, length_take, Skb.length_bytes, min_eq_left hle]

lemma pskbTrimRcsum_spec {ok : Bool} {s s' : Skb} {n : Nat} (h : pskbTrimRcsum ok s n = some s') :
    s'.offset = s.offset ∧ s'.ihl = s.ihl ∧ s'.pulled = s.pulled ∧ s'.bytes = s.bytes.take n := by
  unfold pskbTrimRcsum at h
  split at h
  · rename_i hlen
    cases h
    refine ⟨rfl, rfl, rfl, (take_of_length_le ?_).symm⟩
    rw [Skb.length_bytes]
    exact hlen
  · split at h
    · cases h
    · cases h
      exact ⟨rfl, rfl, rfl, take_append.symm⟩

-- == chains

/-- Skbs as segments, of no particular value. -/
def skbSegment : Segment Skb Unit where
  ofs := Skb.offset
  size := Skb.len
  val _ := ()

def total (l : List Skb) : Nat := (l.map Skb.len).sum

@[simp] lemma total_cons (s : Skb) (l : List Skb) : total (s :: l) = s.len + total l := by
  unfold total
  rw [map_cons, sum_cons]

lemma total_append (l1 l2 : List Skb) : total (l1 ++ l2) = total l1 + total l2 := by
  unfold total
  rw [map_append, sum_append]

/-- The place of an offset: the chain is cut in two, before the first skb
that is not in front of the offset. -/
theorem findPlace_spec (offset : Nat) (prevs l : List Skb)
    (hprevs : ∀ s ∈ prevs, s.offset < offset) :
    (findPlace offset prevs l).1.reverse ++ (findPlace offset prevs l).2 = prevs.reverse ++ l ∧
      (∀ s ∈ (findPlace offset prevs l).1, s.offset < offset) ∧
      ∀ s, (findPlace offset prevs l).2.head? = some s → offset ≤ s.offset := by
  induction l generalizing prevs with
  | nil => exact ⟨rfl, hprevs, nofun⟩
  | cons next rest ih =>
    rw [findPlace]
    by_cases h : offset ≤ next.offset
    · rw [if_pos h]
      refine ⟨rfl, hprevs, fun s hs => ?_⟩
      cases hs
      exact h
    rw [if_neg h]
    have hprevs' : ∀ s ∈ next :: prevs, s.offset < offset := by
      exact forall_mem_cons.mpr ⟨not_le.mp h, hprevs⟩
    obtain ⟨happ, hlt, hge⟩ := ih (next :: prevs) hprevs'
    refine ⟨?_, hlt, hge⟩
    rw [happ, reverse_cons, append_assoc, singleton_append]

/-- The following fragments after the loop. -/
theorem eatNext_spec (env : Env) (stop : Nat) (l : List Skb) (meat : Int)
    (hapart : skbSegment.Apart l) (hpos : ∀ s ∈ l, 0 < s.len) :
    skbSegment.Apart (eatNext env stop l meat).2.1 ∧
      (∀ s ∈ (eatNext env stop l meat).2.1, ∃ s₀ ∈ l, ∃ i, Rear s s₀ i) ∧
      (eatNext env stop l meat).2.2 + total l = meat + total (eatNext env stop l meat).2.1 ∧
      ((eatNext env stop l meat).1 = true →
        ∀ s ∈ (eatNext env stop l meat).2.1, stop ≤ s.offset) := by
  induction l generalizing meat with
  | nil => exact ⟨hapart, nofun, rfl, fun _ => nofun⟩
  | cons next rest ih =>
    obtain ⟨hnext, hrest⟩ := pairwise_cons.mp hapart
    have hrefl : ∀ s ∈ next :: rest, ∃ s₀ ∈ next :: rest, ∃ i,
        Rear s s₀ i := fun s hs => ⟨s, hs, 0, .refl (hpos s hs)⟩
    rw [eatNext]
    by_cases hlt : next.offset < stop
    · rw [if_pos hlt]
      by_cases hi : stop - next.offset < next.len
      · rw [if_pos hi]
        cases hpull : pskbPull env.pullNext next (stop - next.offset) with
        | none =>
          exact ⟨hapart, hrefl, rfl, nofun⟩
        | some s =>
          obtain ⟨-, hofs, -, hbytes, hpulled⟩ := pskbPull_spec hpull
          have hrear : Rear { s with
              offset := s.offset + (stop - next.offset) } next
              (stop - next.offset) :=
            ⟨hi, by rw [hofs], hbytes, hpulled⟩
          have hlen := hrear.len
          have hstop := hrear.stop
          refine ⟨.cons (fun y hy => ?_) hrest, fun y hy => ?_, ?_, fun _ y hy => ?_⟩
          · exact (le_of_eq hstop).trans (hnext y hy)
          · rcases mem_cons.mp hy with rfl | hy
            · exact ⟨next, mem_cons_self, _, hrear⟩
            · exact hrefl y (mem_cons_of_mem next hy)
          · dsimp only
            rw [total_cons, total_cons, hlen]
            omega
          · rcases mem_cons.mp hy with rfl | hy
            · have := hrear.offset
              omega
            · have hy' : next.offset + next.len ≤ y.offset := hnext y hy
              omega
      · rw [if_neg hi]
        obtain ⟨h1, h2, h3, h4⟩ := ih (meat - next.len) hrest
          (fun s hs => hpos s (mem_cons_of_mem next hs))
        refine ⟨h1, fun s hs => ?_, ?_, h4⟩
        · obtain ⟨s₀, hs0, hrear⟩ := h2 s hs
          exact ⟨s₀, mem_cons_of_mem next hs0, hrear⟩
        · rw [total_cons]
          omega
    · rw [if_neg hlt]
      refine ⟨hapart, hrefl, rfl, fun _ s hs => ?_⟩
      rcases mem_cons.mp hs with rfl | hs
      · exact not_lt.mp hlt
      · have hs' : next.offset + next.len ≤ s.offset := hnext s hs
        omega

variable {past : List Packet} {env : Env} {q : Queue} {p : Packet}
variable {prevs : List Skb} {len offset stop : Nat} {s : Skb}

-- == the invariant

/-- Some fragment had this byte at this position. -/
def ByteAt (past : List Packet) (pos : Nat) (b : UInt8) : Prop :=
  ∃ p ∈ past, p.offset ≤ pos ∧ p.payload[pos - p.offset]? = some b

/-- What holds of a queued skb, in a datagram that may have `len` bytes. -/
structure Genuine (past : List Packet) (len : Nat) (s : Skb) : Prop where
  pos : 0 < s.len
  stop : s.offset + s.len ≤ len
  bytes : ∀ k b, s.bytes[k]? = some b → ByteAt past (s.offset + k) b
  pulled : s.pulled.length ≤ s.offset

lemma Genuine.rear {i : Nat} {s0 : Skb} (h : Genuine past len s0)
    (hrear : Rear s s0 i) : Genuine past len s := by
  have hlt := hrear.lt
  have hlen := hrear.len
  have hpulled := h.pulled
  refine ⟨by omega, ?_, fun k b hk => ?_, ?_⟩
  · rw [hrear.stop]
    exact h.stop
  · rw [hrear.bytes, List.getElem?_drop] at hk
    rw [hrear.offset, add_assoc]
    exact h.bytes (i + k) b hk
  · rw [hrear.pulled, hrear.offset]
    omega

variable {past' : List Packet}

lemma Genuine.mono {len' : Nat}
    (h : Genuine past len s) (hpast : past ⊆ past') (hlen : len ≤ len') :
    Genuine past' len' s := by
  refine ⟨h.pos, h.stop.trans hlen, fun k b hk => ?_, h.pulled⟩
  obtain ⟨p, hp, hat⟩ := h.bytes k b hk
  exact ⟨p, hpast hp, hat⟩

structure Ok (past : List Packet) (q : Queue) : Prop where
  apart : skbSegment.Apart q.fragments
  meat : q.meat = total q.fragments
  genuine : ∀ s ∈ q.fragments, Genuine past q.len s

def Covers (q : Queue) : Prop := skbSegment.Shows (fun _ => ()) 0 q.fragments q.len

/-- The queue is as it should be, or its fragments were delivered. -/
def Inv (past : List Packet) (q : Queue) : Prop := q.complete = true ∧ q.fragments = [] ∨ Ok past q

/-- What holds after a call, and of the queue `ip_frag_reasm` was called
with. -/
structure StepOk (past : List Packet) (r : Outcome × Queue) : Prop where
  inv : Inv past r.2
  reasm : ∀ entry res, r.1 = .reasm entry res → Ok past entry ∧ Covers entry ∧ res ≠ .oops ∧
      ∀ d, res = .ok d → d.payload = entry.fragments.flatMap Skb.bytes

lemma StepOk.of_ok {r : Outcome × Queue} (h : Ok past r.2)
    (hr : ∀ entry res, r.1 ≠ .reasm entry res) : StepOk past r :=
  ⟨.inr h, fun entry res heq => absurd heq (hr entry res)⟩

lemma Ok.mono {q' : Queue} (h : Ok past q)
    (hpast : past ⊆ past') (hfragments : q'.fragments = q.fragments)
    (hmeat : q'.meat = q.meat) (hlen : q.len ≤ q'.len) : Ok past' q' := by
  refine ⟨?_, ?_, fun s hs => ?_⟩
  · rw [hfragments]
    exact h.apart
  · rw [hmeat, hfragments]
    exact h.meat
  · rw [hfragments] at hs
    exact (h.genuine s hs).mono hpast hlen

-- == reassembly

/-- No hole: enough bytes below `len` are all of them. -/
theorem Ok.covers (h : Ok past q) (hmeat : q.meat = q.len) : Covers q := by
  apply h.apart.shows_of_sum
  · exact fun s hs => (h.genuine s hs).pos
  · exact fun s _ => Nat.zero_le _
  · exact fun s hs => (h.genuine s hs).stop
  · exact fun s _ _ => rfl
  · have hsum := h.meat
    rw [hmeat] at hsum
    rw [zero_add]
    exact (Int.ofNat_inj.mp hsum).symm

/-- Reassembly of a complete queue gives its bytes in order. -/
theorem ipFragReasm_spec (hq : Ok past q) (hcovers : Covers q)
    (hne : q.fragments ≠ []) (prevs : List Skb) :
    Inv past (ipFragReasm env q prevs).2 ∧ (ipFragReasm env q prevs).1 ≠ .oops ∧
      ∀ d, (ipFragReasm env q prevs).1 = .ok d → d.payload = q.fragments.flatMap Skb.bytes := by
  have hkill : Ok past q.kill := hq.mono (fun _ h => h) rfl rfl le_rfl
  unfold ipFragReasm
  dsimp only
  split
  · exact ⟨.inr hkill, nofun, nofun⟩
  have hfrag : q.kill.fragments = q.fragments := rfl
  rw [hfrag]
  cases hq' : q.fragments with
  | nil => exact absurd hq' hne
  | cons head rest =>
    dsimp only
    split
    · exact ⟨.inr hkill, nofun, nofun⟩
    split
    · exact ⟨.inr hkill, nofun, nofun⟩
    split
    · exact ⟨.inr hkill, nofun, nofun⟩
    refine ⟨.inl ⟨rfl, rfl⟩, nofun, fun d hd => ?_⟩
    -- nothing was pulled off a fragment that begins at 0
    have hzero : head.offset = 0 := by
      unfold Covers at hcovers
      rw [hq'] at hcovers
      exact hcovers.1
    have hpulled : head.pulled = [] := by
      have hmem : head ∈ q.fragments := by
        rw [hq']
        exact mem_cons_self
      have := (hq.genuine head hmem).pulled
      exact length_eq_zero_iff.mp (by omega)
    cases hd
    rw [hpulled, nil_append, flatMap_cons]
    cases hlist : head.fragList with
    | nil =>
      unfold Skb.bytes
      rw [hlist, append_nil]
      rfl
    | cons b l =>
      rw [if_neg (by exact Bool.false_ne_true), flatMap_cons, ← append_assoc]
      unfold Skb.bytes
      rw [hlist]
      rfl

-- == one fragment

lemma Packet.offset_mod (p : Packet) : p.offset % 8 = 0 := by
  unfold Packet.offset
  rw [Nat.shiftLeft_eq]
  exact Nat.mul_mod_left _ 8

/-- The fragment noted: its end, cut down to a multiple of 8 if more are to
come, is below the length. -/
lemma ipFragSetLen_spec {more : Bool} {stop0 : Nat} {q' : Queue}
    (h : ipFragSetLen q more stop0 = some (q', stop))
    (hofs : offset ≤ stop0) (hmod : offset % 8 = 0) :
    q'.fragments = q.fragments ∧ q'.meat = q.meat ∧
      q'.complete = q.complete ∧ q.len ≤ q'.len ∧ stop ≤ q'.len ∧
      offset ≤ stop ∧ stop ≤ stop0 := by
  unfold ipFragSetLen at h
  split at h
  · split at h
    · cases h
    · rename_i hlen
      cases h
      simp only [Bool.or_eq_true, decide_eq_true_eq, not_or] at hlen
      exact ⟨rfl, rfl, rfl, not_lt.mp hlen.1, le_rfl, hofs, le_rfl⟩
  dsimp only at h
  split at h
  · rename_i hlen
    split at h
    · cases h
    · cases h
      exact ⟨rfl, rfl, rfl, le_of_lt hlen, le_rfl, by omega, by omega⟩
  · rename_i hlen
    cases h
    exact ⟨rfl, rfl, rfl, le_rfl, not_lt.mp hlen, by omega, by omega⟩

lemma eatHead_spec {offset' : Nat} {s' : Skb}
    (h : eatHead env offset stop s prevs = .ok (offset', s')) (hlt : offset < stop) :
    offset ≤ offset' ∧ offset' < stop ∧
      (∀ prev, prevs.head? = some prev → prev.offset + prev.len ≤ offset') ∧
      s'.ihl = s.ihl ∧ s'.bytes = s.bytes.drop (offset' - offset) ∧
      s'.pulled.length = s.pulled.length + (offset' - offset) := by
  have hsame : offset' = offset → s' = s →
      s'.ihl = s.ihl ∧ s'.bytes = s.bytes.drop (offset' - offset) ∧
      s'.pulled.length = s.pulled.length + (offset' - offset) := by
    rintro rfl rfl
    rw [Nat.sub_self]
    exact ⟨rfl, rfl, rfl⟩
  cases prevs with
  | nil =>
    cases h
    exact ⟨le_rfl, hlt, nofun, hsame rfl rfl⟩
  | cons prev rest =>
    rw [eatHead] at h
    dsimp only at h
    split at h
    · split at h
      · cases h
      rename_i hi hstop
      cases hpull : pskbPull env.pullHead s (prev.offset + prev.len - offset) with
      | none =>
        simp [hpull] at h
      | some s1 =>
        rw [hpull] at h
        cases h
        obtain ⟨-, -, hihl, hbytes, hpulled⟩ := pskbPull_spec hpull
        have hsub : offset + (prev.offset + prev.len - offset) - offset
            = prev.offset + prev.len - offset := by omega
        rw [hsub]
        refine ⟨by omega, by omega, fun y hy => ?_, hihl, hbytes, hpulled⟩
        cases hy
        omega
    · rename_i hi
      cases h
      refine ⟨le_rfl, hlt, fun y hy => ?_, hsame rfl rfl⟩
      cases hy
      omega

lemma genuine_of_packet (hp : p ∈ past) (hofs : p.offset ≤ offset) (hlt : offset < stop)
    (hstop : stop ≤ p.offset + p.payload.length) (hlen : stop ≤ len)
    (hbytes : s.bytes = (p.payload.take (stop - p.offset)).drop (offset - p.offset))
    (hpulled : s.pulled.length = offset - p.offset) :
    offset + s.len = stop ∧ Genuine past len { s with offset := offset } := by
  have hslen : s.len = stop - offset := by
    rw [← Skb.length_bytes, hbytes, length_drop, length_take]
    omega
  refine ⟨by omega, ?_, ?_, fun k b hk => ⟨p, hp, ?_, ?_⟩, ?_⟩
  · show 0 < s.len
    omega
  · show offset + s.len ≤ len
    omega
  · exact hofs.trans (Nat.le_add_right _ _)
  · have hk' : s.bytes[k]? = some b := hk
    rw [hbytes, List.getElem?_drop, List.getElem?_take] at hk'
    split at hk'
    · have hsub : offset + k - p.offset = offset - p.offset + k := by omega
      rw [← hk', ← hsub]
    · cases hk'
  · exact hpulled ▸ Nat.sub_le _ _

lemma Ok.insert {nexts : List Skb} {meat : Int} (hprevs : skbSegment.Apart prevs.reverse)
    (hnexts : skbSegment.Apart nexts) (hbefore : ∀ x ∈ prevs, x.offset + x.len ≤ s.offset)
    (hafter : ∀ x ∈ nexts, s.offset + s.len ≤ x.offset)
    (hmeat : meat = total prevs.reverse + total nexts) (hs : Genuine past q.len s)
    (hgenuine : ∀ x, x ∈ prevs ∨ x ∈ nexts → Genuine past q.len x) :
    Ok past (q.insert s prevs nexts meat) := by
  refine ⟨?_, ?_, fun x hx => ?_⟩
  · refine pairwise_append.mpr ⟨hprevs, .cons hafter hnexts, ?_⟩
    intro x hx y hy
    have hxs := hbefore x (mem_reverse.mp hx)
    rcases mem_cons.mp hy with rfl | hy
    · exact hxs
    · have := hafter y hy
      exact hxs.trans ((Nat.le_add_right _ _).trans this)
  · unfold Queue.insert
    rw [total_append, total_cons, hmeat]
    push_cast
    omega
  · rcases mem_append.mp hx with hx | hx
    · exact hgenuine x (.inl (mem_reverse.mp hx))
    · rcases mem_cons.mp hx with rfl | hx
      · exact hs
      · exact hgenuine x (.inr hx)

lemma ipFragFinish_ok (hq : Ok past q) (hne : q.fragments ≠ [])
    (prevs : List Skb) : StepOk past (ipFragFinish env q prevs) := by
  unfold ipFragFinish
  split
  · rename_i hdone
    unfold Queue.done at hdone
    simp only [Bool.and_eq_true, decide_eq_true_eq] at hdone
    have hcovers := hq.covers hdone.2
    obtain ⟨hinv, hoops, hbytes⟩ := ipFragReasm_spec hq hcovers hne prevs
    refine ⟨hinv, fun entry res heq => ?_⟩
    cases heq
    exact ⟨hq, hcovers, hoops, hbytes⟩
  · exact .of_ok hq nofun

/-- What ends before the new fragment: the preceding one does, and the ones
before that end earlier. -/
lemma stop_le_of_head (hapart : skbSegment.Apart prevs.reverse)
    (hhead : ∀ prev, prevs.head? = some prev → prev.offset + prev.len ≤ offset) :
    ∀ x ∈ prevs, x.offset + x.len ≤ offset := by
  intro x hx
  cases prevs with
  | nil => cases hx
  | cons prev rest =>
    have hprev := hhead prev rfl
    rcases mem_cons.mp hx with rfl | hx
    · exact hprev
    rw [reverse_cons] at hapart
    have hle : x.offset + x.len ≤ prev.offset :=
      (pairwise_append.mp hapart).2.2 x (mem_reverse.mpr hx) prev (mem_singleton_self prev)
    omega

lemma Ok.shrink {nexts rest : List Skb} {meat : Int} (hq : Ok past q)
    (happ : prevs.reverse ++ nexts = q.fragments) (hrest : skbSegment.Apart rest)
    (hrear : ∀ s ∈ rest, ∃ s0 ∈ nexts, ∃ i, Rear s s0 i)
    (hmeat : meat + total nexts = q.meat + total rest) :
    Ok past { q with fragments := prevs.reverse ++ rest, meat := meat } := by
  have hapart := hq.apart
  have hsum := hq.meat
  have hgenuine := hq.genuine
  rw [← happ] at hapart hsum hgenuine
  obtain ⟨hprevs, -, hcross⟩ := pairwise_append.mp hapart
  refine ⟨pairwise_append.mpr ⟨hprevs, hrest, ?_⟩, ?_, fun s hs => ?_⟩
  · intro x hx y hy
    obtain ⟨s0, hs0, i, hy⟩ := hrear y hy
    have hle : x.offset + x.len ≤ s0.offset := hcross x hx s0 hs0
    show x.offset + x.len ≤ y.offset
    rw [hy.offset]
    omega
  · rw [total_append] at hsum ⊢
    push_cast at hsum ⊢
    omega
  · rcases mem_append.mp hs with hs | hs
    · exact hgenuine s (mem_append_left _ hs)
    · obtain ⟨s0, hs0, i, hrear⟩ := hrear s hs
      exact (hgenuine s0 (mem_append_right _ hs0)).rear hrear

lemma ipFragPlace_ok (hq : Ok past q)
    (hofs : p.offset ≤ stop) (hstop : stop ≤ p.offset + p.payload.length) (hlen : stop ≤ q.len) :
    StepOk (p :: past) (ipFragPlace env q p stop) := by
  have hok : Ok (p :: past) q := hq.mono (subset_cons_self p past) rfl rfl le_rfl
  unfold ipFragPlace
  split
  · exact .of_ok hok nofun
  rename_i hne
  split
  · exact .of_ok hok nofun
  cases htrim : pskbTrimRcsum env.trim ⟨0, p.ihl, [], p.data, p.fragList⟩ (stop - p.offset) with
  | none => exact .of_ok hok nofun
  | some s =>
    dsimp only
    obtain ⟨-, -, hspulled, hsbytes⟩ := pskbTrimRcsum_spec htrim
    obtain ⟨happ, hbefore, hafter⟩ := findPlace_spec p.offset [] q.fragments nofun
    generalize findPlace p.offset [] q.fragments = place at *
    cases hhead : eatHead env p.offset stop s place.1 with
    | error err => exact .of_ok hok nofun
    | ok r =>
      obtain ⟨offset', s'⟩ := r
      obtain ⟨hofs', hlt', hprev, -, hbytes, hpulled⟩ := eatHead_spec hhead (by omega)
      rw [reverse_nil, nil_append] at happ
      have happart := hok.apart
      rw [← happ] at happart
      obtain ⟨hprevs, hnexts, -⟩ := pairwise_append.mp happart
      have hpos : ∀ x ∈ place.2, 0 < x.len := fun x hx =>
        (hok.genuine x (happ ▸ mem_append_right _ hx)).pos
      obtain ⟨hrest, hrear, hmeat, hclear⟩ := eatNext_spec env stop place.2 q.meat hnexts hpos
      have hshrunk := hok.shrink happ hrest hrear hmeat
      generalize eatNext env stop place.2 q.meat = e at *
      dsimp only
      split
      · exact .of_ok hshrunk nofun
      rename_i hgo
      have hdone : e.1 = true := by simpa using hgo
      have hsbytes' : s'.bytes = (p.payload.take (stop - p.offset)).drop (offset' - p.offset) := by
        rw [hbytes, hsbytes]
        rfl
      have hspulled' : s'.pulled.length = offset' - p.offset := by
        rw [hpulled, hspulled, length_nil, zero_add]
      obtain ⟨hend, hnew⟩ := genuine_of_packet (mem_cons_self : p ∈ p :: past) hofs' hlt' hstop hlen
        hsbytes' hspulled'
      apply ipFragFinish_ok _ (by simp [Queue.insert])
      apply Ok.insert hprevs hrest (stop_le_of_head hprevs hprev)
      · intro x hx
        have := hclear hdone x hx
        show offset' + s'.len ≤ x.offset
        omega
      · have hsum := hshrunk.meat
        rw [total_append] at hsum
        exact_mod_cast hsum
      · exact hnew
      · intro x hx
        apply hshrunk.genuine x
        rcases hx with hx | hx
        · exact mem_append_left _ (mem_reverse.mpr hx)
        · exact mem_append_right _ hx

lemma ipFragCheckFar_ok (env : Env) (p : Packet) (hq : Ok past q) :
    Ok past (ipFragCheckFar env q p).2 := by
  have hfar : Ok past (ipFragTooFar env q).2 := by
    unfold ipFragTooFar
    split
    · exact hq
    · exact hq.mono (fun _ h => h) rfl rfl le_rfl
  unfold ipFragCheckFar
  dsimp only
  split
  · exact hq
  split
  · unfold ipFragReinit
    split
    · exact hfar
    · exact ⟨.nil, rfl, nofun⟩
  · exact hfar

/-- One call keeps the invariant, and calls `ip_frag_reasm` for a complete
datagram only. -/
theorem ipFragQueue_ok (env : Env) (p : Packet) (hq : Inv past q) :
    StepOk (p :: past) (ipFragQueue env q p) := by
  have hsub := subset_cons_self p past
  unfold ipFragQueue
  split
  · rcases hq with hq | hq
    · exact ⟨.inl hq, nofun⟩
    · exact .of_ok (hq.mono hsub rfl rfl le_rfl) nofun
  rename_i hcomplete
  rcases hq with hq | hq
  · exact absurd hq.1 hcomplete
  have hfar := ipFragCheckFar_ok env p hq
  cases hcheck : ipFragCheckFar env q p with
  | mk err q1 =>
    rw [hcheck] at hfar
    cases err with
    | some err =>
      exact .of_ok (hfar.mono hsub rfl rfl le_rfl) nofun
    | none =>
      dsimp only
      cases hset : ipFragSetLen q1 p.more (p.offset + p.payload.length) with
      | none =>
        exact .of_ok (hfar.mono hsub rfl rfl le_rfl) nofun
      | some r =>
        obtain ⟨q2, stop⟩ := r
        obtain ⟨hfragments, hmeat, -, hlen, hstop, hofs, hle⟩ :=
          ipFragSetLen_spec hset (Nat.le_add_right _ _) p.offset_mod
        exact ipFragPlace_ok (hfar.mono (fun _ h => h) hfragments hmeat hlen) hofs hle hstop

end BoardStack.IpFrag
