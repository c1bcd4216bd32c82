/-
A datagram that was cut into fragments is delivered.

`IsCut` is the cutting: pieces side by side, none of them empty, with IP_MF
on all but the last. As long as a piece is missing, the queue holds exactly
the pieces that arrived (`Partial`), and a repeated one takes the place of
the first. With the last missing piece the queue is, piece by piece, the
datagram.

The invariant of `Safety` holds after every sequence of fragments, and `Partial`
after every sequence of pieces of one datagram that is not complete.
`reassembly_correct` puts the two together.
-/
import BoardStack.IpFrag.Safety

namespace BoardStack.IpFrag

open Base List

section

open Bool

-- == pieces

structure Piece where
  offset : Nat
  bytes : List UInt8
  more : Bool
deriving DecidableEq, Repr

def pieceSegment : Segment Piece Unit where
  ofs := Piece.offset
  size x := x.bytes.length
  val _ := ()

structure IsCut (payload : List UInt8) (cut : List Piece) : Prop where
  fills : pieceSegment.Shows (fun _ => ()) 0 cut payload.length
  bytes : cut.flatMap Piece.bytes = payload
  more : ∀ x ∈ cut, x.more = true ↔ x.offset + x.bytes.length < payload.length

/-- The packet is the fragment with this piece. The first fragment has the
header of the datagram, the others may have a shorter one. -/
structure Carries (ihl : Nat) (x : Piece) (p : Packet) : Prop where
  offset : p.offset = x.offset
  payload : p.payload = x.bytes
  more : p.more = x.more
  ihl : x.offset = 0 → p.ihl = ihl

def Env.Succeeds (env : Env) : Bool :=
  env.pullHeader && env.trim && env.pullHead && env.pullNext && env.clone &&
    (!env.headCloned || env.expandHead) && env.alloc

/-- `ip_frag_too_far` never starts the queue again. -/
def NoReset : Queue → List Input → Prop
  | _, [] => True
  | q, i :: is =>
    (i.packet.complete = true ∨ (ipFragTooFar i.env q).1 = false) ∧
      NoReset (ipFragQueue i.env q i.packet).2 is

section

variable {payload : List UInt8} {cut : List Piece} (hcut : IsCut payload cut)
variable {env : Env} {x : Piece} {q : Queue} {s : Skb}
include hcut

lemma IsCut.pos (hx : x ∈ cut) : 0 < x.bytes.length := (hcut.fills.mem_range hx).2.1

lemma IsCut.stop_le (hx : x ∈ cut) : x.offset + x.bytes.length ≤ payload.length :=
  (hcut.fills.mem_range hx).2.2

lemma IsCut.eq_of_overlap {y : Piece} (hx : x ∈ cut) (hy : y ∈ cut)
    (hxy : x.offset < y.offset + y.bytes.length)
    (hyx : y.offset < x.offset + x.bytes.length) : x = y :=
  hcut.fills.apart.eq_of_overlap hx hy hxy hyx

lemma IsCut.stop_mod (halign : ∀ x ∈ cut, x.offset % 8 = 0)
    (hx : x ∈ cut) (hmore : x.more = true) :
    (x.offset + x.bytes.length) % 8 = 0 := by
  obtain ⟨y, hy, hofs⟩ := hcut.fills.exists_next hx ((hcut.more x hx).mp hmore)
  have hofs' : y.offset = x.offset + x.bytes.length := hofs
  rw [← hofs']
  exact halign y hy

end

-- == queues of some pieces

structure Holds (ihl : Nat) (s : Skb) (p : Packet) : Prop where
  offset : s.offset = p.offset
  bytes : s.bytes = p.payload
  ihl : p.offset = 0 → s.ihl = ihl

lemma Holds.len {ihl : Nat} {p : Packet} (h : Holds ihl s p) : s.len = p.payload.length := by
  rw [← Skb.length_bytes, h.bytes]

/-- The queue while pieces are missing: all that arrived, and no more. -/
structure Partial (ihl size : Nat) (past : List Packet) (q : Queue) : Prop where
  notComplete : q.complete = false
  ok : Ok past q
  queued : ∀ s ∈ q.fragments, ∃ p ∈ past, Holds ihl s p
  there : ∀ p ∈ past, ∃ s ∈ q.fragments, Holds ihl s p
  first : ∀ p ∈ past, p.offset = 0 → q.firstIn = true
  last : ∀ p ∈ past, p.more = false → q.lastIn = true
  len_le : q.len ≤ size
  len_eq : q.lastIn = true → q.len = size

lemma ipFragCheckFar_noReset {p : Packet}
    (h : p.complete = true ∨ (ipFragTooFar env q).1 = false) :
    ∃ rid, ipFragCheckFar env q p = (none, { q with rid := rid }) := by
  have hfar : ∃ rid, (ipFragTooFar env q).2 = { q with rid := rid } := by
    unfold ipFragTooFar
    split
    · exact ⟨q.rid, rfl⟩
    · exact ⟨env.peerRid, rfl⟩
  unfold ipFragCheckFar
  split
  · exact ⟨q.rid, rfl⟩
  rename_i hcomplete
  obtain ⟨rid, hrid⟩ := hfar
  rcases h with h | h
  · exact absurd h hcomplete
  · refine ⟨rid, ?_⟩
    dsimp only
    rw [h, hrid]
    rfl

lemma ipFragSetLen_piece {more : Bool} {stop size : Nat}
    (hle : q.len ≤ size) (heq : q.lastIn = true → q.len = size)
    (hstop : stop ≤ size) (hmore : more = true ↔ stop < size) (hmod : more = true → stop % 8 = 0) :
    ∃ len lastIn, ipFragSetLen q more stop = some ({ q with len := len, lastIn := lastIn }, stop) ∧
      len ≤ size ∧ (lastIn = true → len = size) ∧
      (q.lastIn = true → lastIn = true) ∧ (more = false → lastIn = true) := by
  unfold ipFragSetLen
  cases more with
  | false =>
    have hsize : stop = size := by
      have : ¬stop < size := fun h => nomatch hmore.mpr h
      omega
    have hok : (decide (stop < q.len) || (q.lastIn && decide (stop ≠ q.len))) = false := by
      rw [or_eq_false_iff]
      refine ⟨decide_eq_false (by omega), ?_⟩
      cases hlast : q.lastIn with
      | false => rfl
      | true =>
        have := heq hlast
        exact decide_eq_false (by omega)
    refine ⟨stop, true, ?_, hstop, fun _ => hsize, fun _ => rfl, fun _ => rfl⟩
    rw [hok]
    rfl
  | true =>
    have hmod' := hmod rfl
    simp only [Bool.not_true, hmod', Nat.sub_zero]
    by_cases hlen : q.len < stop
    · have hlast : q.lastIn = false := by
        cases hl : q.lastIn with
        | false => rfl
        | true =>
          have := heq hl
          omega
      refine ⟨stop, false, ?_, hstop, nofun, ?_, nofun⟩
      · rw [if_pos hlen, hlast]
        rfl
      · rw [hlast]
        exact nofun
    · refine ⟨q.len, q.lastIn, ?_, hle, heq, fun h => h, nofun⟩
      rw [if_neg hlen]
      rfl

lemma eatHead_apart {offset stop : Nat} {prevs : List Skb}
    (h : ∀ prev ∈ prevs, prev.offset + prev.len ≤ offset) :
    eatHead env offset stop s prevs = .ok (offset, s) := by
  cases prevs with
  | nil => rfl
  | cons prev rest =>
    have := h prev mem_cons_self
    rw [eatHead]
    rw [if_neg (by omega)]

lemma eatNext_pieces (env : Env) (stop : Nat) (l : List Skb) (meat : Int)
    (hin : ∀ s ∈ l, s.offset < stop → s.offset + s.len ≤ stop) (hapart : skbSegment.Apart l) :
    (eatNext env stop l meat).1 = true ∧
      ∀ s, s ∈ (eatNext env stop l meat).2.1 ↔ s ∈ l ∧ stop ≤ s.offset := by
  induction l generalizing meat with
  | nil =>
    refine ⟨rfl, fun s => ⟨nofun, ?_⟩⟩
    rintro ⟨hs, -⟩
    exact hs
  | cons next rest ih =>
    obtain ⟨hnext, hrest⟩ := pairwise_cons.mp hapart
    rw [eatNext]
    by_cases hlt : next.offset < stop
    · have hle := hin next mem_cons_self hlt
      obtain ⟨hgo, hmem⟩ := ih (meat - next.len) (fun s hs => hin s (mem_cons_of_mem next hs)) hrest
      rw [if_pos hlt]
      rw [if_neg (by omega)]
      refine ⟨hgo, fun s => (hmem s).trans ⟨fun h =>
        ⟨mem_cons_of_mem next h.1, h.2⟩, ?_⟩⟩
      rintro ⟨hs, hstop⟩
      rcases mem_cons.mp hs with rfl | hs
      · omega
      · exact ⟨hs, hstop⟩
    · rw [if_neg hlt]
      refine ⟨rfl, fun s => ⟨fun hs => ⟨hs, ?_⟩, fun h => h.1⟩⟩
      rcases mem_cons.mp hs with rfl | hs
      · exact not_lt.mp hlt
      · have hs' : next.offset + next.len ≤ s.offset := hnext s hs
        omega

lemma le_offset_of_head {l : List Skb} {offset : Nat} (hapart : skbSegment.Apart l)
    (hhead : ∀ s, l.head? = some s → offset ≤ s.offset) :
    ∀ s ∈ l, offset ≤ s.offset := by
  intro s hs
  cases l with
  | nil => cases hs
  | cons next rest =>
    have hnext := hhead next rfl
    rcases mem_cons.mp hs with rfl | hs
    · exact hnext
    · have hle : next.offset + next.len ≤ s.offset := (pairwise_cons.mp hapart).1 s hs
      omega

-- == one piece

section

variable {ihl : Nat} {payload : List UInt8} {cut : List Piece}
variable {past : List Packet} {q : Queue} {env : Env} {p : Packet} {x : Piece}
variable (hcut : IsCut payload cut) (halign : ∀ x ∈ cut, x.offset % 8 = 0)
variable (hpast : ∀ p ∈ past, ∃ x ∈ cut, Carries ihl x p)
variable (hx : x ∈ cut) (hp : Carries ihl x p)
include hcut hpast hx hp

lemma Partial.eq_of_overlap (h : Partial ihl payload.length past q) (hs : s ∈ q.fragments)
    (hlt : p.offset < s.offset + s.len) (hgt : s.offset < p.offset + p.payload.length) :
    ∃ p' ∈ past, Holds ihl s p' ∧ Carries ihl x p' := by
  obtain ⟨p', hp', hholds⟩ := h.queued s hs
  obtain ⟨y, hy, hcarries⟩ := hpast p' hp'
  rw [hholds.len, hholds.offset, hcarries.offset, hcarries.payload, hp.offset] at hlt
  rw [hholds.offset, hcarries.offset, hp.offset, hp.payload] at hgt
  obtain rfl := hcut.eq_of_overlap hx hy hlt hgt
  exact ⟨p', hp', hholds, hcarries⟩

def newSkb (p : Packet) : Skb := ⟨p.offset, p.ihl, [], p.data, p.fragList⟩

/-- Where a piece goes: between what ends before it and what begins after
it. -/
lemma ipFragPlace_piece (h : Partial ihl payload.length past q)
    (henv : env.Succeeds = true) (q' : Queue) (hq' : q'.fragments = q.fragments) :
    ∃ prevs rest meat, ipFragPlace env q' p (p.offset + p.payload.length)
        = ipFragFinish env (q'.insert (newSkb p) prevs rest meat) prevs ∧
      ∀ s, s ∈ prevs ∨ s ∈ rest ↔ s ∈ q.fragments ∧
        (s.offset + s.len ≤ p.offset ∨ p.offset + p.payload.length ≤ s.offset) := by
  unfold Env.Succeeds at henv
  simp only [and_eq_true] at henv
  obtain ⟨⟨⟨⟨⟨⟨hheader, -⟩, -⟩, -⟩, -⟩, -⟩, -⟩ := henv
  have hpos : 0 < p.payload.length := by
    rw [hp.payload]
    exact hcut.pos hx
  have hspos : ∀ s ∈ q.fragments, 0 < s.len := fun s hs =>
    (h.ok.genuine s hs).pos
  obtain ⟨happ, hbefore, hafter⟩ := findPlace_spec p.offset [] q.fragments nofun
  rw [reverse_nil, nil_append] at happ
  have hapart := h.ok.apart
  rw [← happ] at hapart
  obtain ⟨-, hnexts, -⟩ := pairwise_append.mp hapart
  have hmem : ∀ s, s ∈ q.fragments ↔ s ∈ (findPlace p.offset [] q.fragments).1 ∨
      s ∈ (findPlace p.offset [] q.fragments).2 := by
    intro s
    conv_lhs => rw [← happ]
    rw [mem_append, mem_reverse]
  unfold ipFragPlace
  rw [hq', if_neg (by omega), hheader]
  generalize findPlace p.offset [] q.fragments = place at *
  have hprevs : ∀ s ∈ place.1, s.offset + s.len ≤ p.offset := by
    intro s hs
    have hlt := hbefore s hs
    by_contra hgt
    obtain ⟨p', -, hholds, hcarries⟩ := h.eq_of_overlap hcut hpast hx hp
      ((hmem s).mpr (.inl hs)) (by omega) (by omega)
    have := hholds.offset
    have := hcarries.offset
    have := hp.offset
    omega
  have hge := le_offset_of_head hnexts hafter
  have hin : ∀ s ∈ place.2, s.offset < p.offset + p.payload.length →
      s.offset + s.len ≤ p.offset + p.payload.length := by
    intro s hs hlt
    have hofs := hge s hs
    have hlen := hspos s ((hmem s).mpr (.inr hs))
    obtain ⟨p', -, hholds, hcarries⟩ := h.eq_of_overlap hcut hpast hx hp
      ((hmem s).mpr (.inr hs)) (by omega) hlt
    rw [hholds.len, hholds.offset, hcarries.offset, hcarries.payload, hp.offset, hp.payload]
  obtain ⟨hgo, hrest⟩ := eatNext_pieces env (p.offset + p.payload.length) place.2 q'.meat hin hnexts
  have htrim : pskbTrimRcsum env.trim ⟨0, p.ihl, [], p.data, p.fragList⟩
      (p.offset + p.payload.length - p.offset) = some ⟨0, p.ihl, [], p.data, p.fragList⟩ := by
    apply if_pos
    rw [Nat.add_sub_cancel_left]
    exact le_of_eq length_append.symm
  refine ⟨place.1, (eatNext env (p.offset + p.payload.length) place.2
    q'.meat).2.1, (eatNext env (p.offset + p.payload.length) place.2 q'.meat).2.2, ?_, fun s => ?_⟩
  · rw [htrim]
    dsimp only
    rw [eatHead_apart hprevs]
    rw [hgo]
    rfl
  rw [hrest, hmem]
  constructor
  · rintro (hs | ⟨hs, hstop⟩)
    · exact ⟨.inl hs, .inl (hprevs s hs)⟩
    · exact ⟨.inr hs, .inr hstop⟩
  rintro ⟨hs | hs, hle | hle⟩
  · exact .inl hs
  · have := hbefore s hs
    omega
  · have := hge s hs
    have := hspos s ((hmem s).mpr (.inr hs))
    omega
  · exact .inr ⟨hs, hle⟩

include halign

/-- A piece goes into its place in the queue, which then holds it with the
others. -/
theorem ipFragQueue_piece (h : Partial ihl payload.length past q) (henv : env.Succeeds = true)
    (hreset : p.complete = true ∨ (ipFragTooFar env q).1 = false) :
    ∃ q' prevs, ipFragQueue env q p = ipFragFinish env q' prevs ∧
      Partial ihl payload.length (p :: past) q' := by
  have hstop : p.offset + p.payload.length ≤ payload.length := by
    rw [hp.offset, hp.payload]
    exact hcut.stop_le hx
  have hmore : p.more = true ↔ p.offset + p.payload.length < payload.length := by
    rw [hp.more, hp.offset, hp.payload]
    exact hcut.more x hx
  have hmod : p.more = true → (p.offset + p.payload.length) % 8 = 0 := by
    rw [hp.more, hp.offset, hp.payload]
    exact hcut.stop_mod halign hx
  obtain ⟨rid, hcheck⟩ := ipFragCheckFar_noReset hreset
  obtain ⟨len, lastIn, hset, hlen, heq, hlast, hlast'⟩ :=
    ipFragSetLen_piece (q := { q with rid := rid }) h.len_le h.len_eq hstop hmore hmod
  obtain ⟨prevs, rest, meat, hplace, hmem⟩ := ipFragPlace_piece hcut hpast hx
    hp h henv { q with rid := rid, len := len, lastIn := lastIn } rfl
  have hcall : ipFragQueue env q p = ipFragFinish env (Queue.insert
      { q with rid := rid, len := len, lastIn := lastIn } (newSkb p) prevs rest meat) prevs := by
    unfold ipFragQueue
    rw [if_neg (by rw [h.notComplete]; exact false_ne_true), hcheck]
    dsimp only
    rw [hset]
    exact hplace
  generalize hq' : Queue.insert { q with rid := rid, len := len, lastIn := lastIn }
    (newSkb p) prevs rest meat = q' at *
  have hcomplete : q'.complete = false := by
    rw [← hq']
    exact h.notComplete
  have hmem' : ∀ s, s ∈ q'.fragments ↔ s = newSkb p ∨ s ∈ q.fragments ∧
      (s.offset + s.len ≤ p.offset ∨ p.offset + p.payload.length ≤ s.offset) := by
    intro s
    rw [← hmem, ← hq']
    simp only [Queue.insert, mem_append, mem_reverse, mem_cons]
    exact or_left_comm
  have hnew : Holds ihl (newSkb p) p := ⟨rfl, rfl, fun hzero =>
    hp.ihl (hp.offset ▸ hzero)⟩
  refine ⟨q', prevs, hcall, hcomplete, ?_, ?_, ?_, ?_, ?_, ?_, ?_⟩
  · -- the invariant is that of every call
    have hstep := ipFragQueue_ok env p (.inr h.ok : Inv past q)
    rw [hcall] at hstep
    unfold ipFragFinish at hstep
    split at hstep
    · exact (hstep.reasm q' _ rfl).1
    · rcases hstep.inv with hinv | hinv
      · exact absurd hinv.1 (by rw [hcomplete]; exact false_ne_true)
      · exact hinv
  · intro s hs
    rcases (hmem' s).mp hs with rfl | ⟨hs, -⟩
    · exact ⟨p, mem_cons_self, hnew⟩
    · obtain ⟨p', hp', hholds⟩ := h.queued s hs
      exact ⟨p', mem_cons_of_mem p hp', hholds⟩
  · intro p' hp'
    rcases mem_cons.mp hp' with rfl | hp'
    · exact ⟨newSkb p', (hmem' _).mpr (.inl rfl), hnew⟩
    obtain ⟨s, hs, hholds⟩ := h.there p' hp'
    by_cases hkeep : s.offset + s.len ≤ p.offset ∨ p.offset + p.payload.length ≤ s.offset
    · exact ⟨s, (hmem' s).mpr (.inr ⟨hs, hkeep⟩), hholds⟩
    -- the earlier copy gives way to the new one
    obtain ⟨p'', -, hholds', hcarries⟩ := h.eq_of_overlap hcut hpast hx hp hs (by omega) (by omega)
    have hofs : p'.offset = p.offset := by
      rw [← hholds.offset, hholds'.offset, hcarries.offset, hp.offset]
    have hbytes : p'.payload = p.payload := by
      rw [← hholds.bytes, hholds'.bytes, hcarries.payload, hp.payload]
    refine ⟨newSkb p, (hmem' _).mpr (.inl rfl), hofs.symm, hbytes.symm, ?_⟩
    rw [hofs]
    exact hnew.ihl
  · intro p' hp' hzero
    rw [← hq']
    rcases mem_cons.mp hp' with rfl | hp'
    · exact or_eq_true_iff.mpr (.inr (decide_eq_true hzero))
    · exact or_eq_true_iff.mpr (.inl (h.first p' hp' hzero))
  · intro p' hp' hmore'
    rw [← hq']
    rcases mem_cons.mp hp' with rfl | hp'
    · exact hlast' hmore'
    · exact hlast (h.last p' hp' hmore')
  · rw [← hq']
    exact hlen
  · rw [← hq']
    exact heq

end

-- == the last piece

lemma ipFragReasm_succeeds {head : Skb} {rest : List Skb} (henv : env.Succeeds = true)
    (hfrag : q.fragments = head :: rest) (hfits : head.ihl + q.len ≤ 65535) (prevs : List Skb) :
    ∃ d, (ipFragReasm env q prevs).1 = .ok d ∧ d.ihl = head.ihl ∧ d.totLen = head.ihl + q.len := by
  unfold Env.Succeeds at henv
  simp only [and_eq_true] at henv
  obtain ⟨⟨⟨-, hclone⟩, hexpand⟩, halloc⟩ := henv
  have hkill : q.kill.fragments = head :: rest := hfrag
  have hlen : q.kill.len = q.len := rfl
  unfold ipFragReasm
  dsimp only
  rw [hclone, hkill, hlen]
  dsimp only
  rw [halloc, if_neg (by simp), if_neg (not_lt.mpr hfits),
    if_neg (by revert hexpand; cases env.headCloned <;> simp), if_neg (by simp)]
  exact ⟨_, rfl, rfl, rfl⟩

section

variable {ihl : Nat} {payload : List UInt8} {cut : List Piece}
variable {past : List Packet} {q : Queue}

lemma Partial.of_done (h : Partial ihl payload.length past q) (hdone : q.done = true) :
    Covers q ∧ q.len = payload.length := by
  unfold Queue.done at hdone
  simp only [and_eq_true, decide_eq_true_eq] at hdone
  obtain ⟨⟨⟨-, hlast⟩, -⟩, hmeat⟩ := hdone
  exact ⟨h.ok.covers hmeat, h.len_eq hlast⟩

lemma Partial.not_done (hcut : IsCut payload cut) (hpast : ∀ p ∈ past, ∃ x ∈ cut, Carries ihl x p)
    (h : Partial ihl payload.length past q) (hx : x ∈ cut)
    (hmissing : ∀ p ∈ past, ¬Carries ihl x p) : q.done = false := by
  by_contra hdone
  rw [not_eq_false] at hdone
  obtain ⟨hcovers, hlen⟩ := h.of_done hdone
  have hpos := hcut.pos hx
  have hstop := hcut.stop_le hx
  obtain ⟨s, hs, hle, hlt⟩ := hcovers.exists_at (Nat.zero_le x.offset) (by omega)
  -- the skb at the beginning of the piece came with the piece
  obtain ⟨p, hp, hholds⟩ := h.queued s hs
  obtain ⟨y, hy, hcarries⟩ := hpast p hp
  have hle' : s.offset ≤ x.offset := hle
  have hlt' : x.offset < s.offset + s.len := hlt
  rw [hholds.offset, hcarries.offset] at hle' hlt'
  rw [hholds.len, hcarries.payload] at hlt'
  obtain rfl := hcut.eq_of_overlap hx hy hlt' (by omega)
  exact hmissing p hp hcarries

variable (hcut : IsCut payload cut) (h : Partial ihl payload.length past q)
variable (hall : ∀ x ∈ cut, ∃ p ∈ past, Carries ihl x p)
include hcut h hall

lemma Partial.pieces : List.Forall₂
    (fun s x => s.offset = x.offset ∧ s.bytes = x.bytes) q.fragments cut := by
  apply h.ok.apart.forall₂_of_shows _ _ _ hcut.fills
  · rintro s x ⟨hofs, hbytes⟩
    refine ⟨hofs, ?_⟩
    show s.len = x.bytes.length
    rw [← Skb.length_bytes, hbytes]
  · intro x hx
    obtain ⟨p, hp, hcarries⟩ := hall x hx
    obtain ⟨s, hs, hholds⟩ := h.there p hp
    exact ⟨s, hs, hholds.offset.trans hcarries.offset, hholds.bytes.trans hcarries.payload⟩
  · exact fun s hs => (h.ok.genuine s hs).pos
  · exact fun s _ => Nat.zero_le _
  · exact fun s hs => (h.ok.genuine s hs).stop.trans h.len_le

lemma Partial.flatMap_bytes : q.fragments.flatMap Skb.bytes = payload := by
  rw [← hcut.bytes]
  have hpieces := h.pieces hcut hall
  generalize q.fragments = l at hpieces
  clear h hcut hall
  induction hpieces with
  | nil => rfl
  | cons hsx _ ih => rw [flatMap_cons, flatMap_cons, hsx.2, ih]

/-- Nothing is missing, so both ends are in and the counters agree. -/
lemma Partial.done (hx : x ∈ cut) : q.done = true := by
  have hpos := hcut.pos hx
  have hstop := hcut.stop_le hx
  have hfirst : q.firstIn = true := by
    obtain ⟨y, hy, hle, -⟩ := hcut.fills.exists_at le_rfl (by omega)
    obtain ⟨p, hp, hcarries⟩ := hall y hy
    exact h.first p hp (hcarries.offset.trans (Nat.le_zero.mp hle))
  have hlast : q.lastIn = true := by
    obtain ⟨y, hy, hle, hlt⟩ := hcut.fills.exists_at (Nat.zero_le (payload.length - 1)) (by omega)
    obtain ⟨p, hp, hcarries⟩ := hall y hy
    have hlt' : payload.length - 1 < y.offset + y.bytes.length := hlt
    apply h.last p hp
    rw [hcarries.more, ← not_eq_true, hcut.more y hy]
    omega
  have hmeat : q.meat = q.len := by
    rw [h.ok.meat, h.len_eq hlast]
    conv_rhs => rw [← h.flatMap_bytes hcut hall, length_flatMap]
    unfold total
    congr 2
    exact map_congr_left fun s _ => (Skb.length_bytes s).symm
  unfold Queue.done
  rw [hfirst, hlast, h.notComplete, decide_eq_true hmeat]
  rfl

/-- The datagram: with all pieces there, reassembly gives the payload. -/
theorem Partial.reasm (henv : env.Succeeds = true)
    (hfits : ihl + payload.length ≤ 65535) (hx : x ∈ cut) (prevs : List Skb) :
    ∃ d, ipFragFinish env q prevs = (.reasm q (.ok d), (ipFragReasm env q prevs).2) ∧
      d.ihl = ihl ∧ d.payload = payload ∧
      d.totLen = ihl + payload.length := by
  have hdone := h.done hcut hall hx
  unfold ipFragFinish
  rw [if_pos hdone]
  obtain ⟨hcovers, hlen⟩ := h.of_done hdone
  cases hfrag : q.fragments with
  | nil =>
    unfold Covers at hcovers
    rw [hfrag, hlen] at hcovers
    have hempty : 0 = payload.length := hcovers
    have := hcut.pos hx
    have := hcut.stop_le hx
    omega
  | cons head rest =>
    have hzero : head.offset = 0 := by
      unfold Covers at hcovers
      rw [hfrag] at hcovers
      exact hcovers.1
    have hihl : head.ihl = ihl := by
      obtain ⟨p, -, hholds⟩ := h.queued head (by simp [hfrag])
      exact hholds.ihl (hholds.offset ▸ hzero)
    obtain ⟨d, hd, hdihl, hdlen⟩ := ipFragReasm_succeeds henv hfrag (by omega) prevs
    have hbytes := (ipFragReasm_spec h.ok hcovers (by simp [hfrag]) prevs).2.2 d hd
    rw [h.flatMap_bytes hcut hall] at hbytes
    refine ⟨d, ?_, hdihl.trans hihl, hbytes, by omega⟩
    dsimp only
    rw [hd]

end

end

-- == runs

lemma queueAfter_inv (peer : Bool) (rid : BitVec 32) (past : List Input) :
    Inv (past.map Input.packet) (queueAfter (fresh peer rid) past) := by
  have hinit : Inv (([] : List Input).map Input.packet) (fresh peer rid) := .inr ⟨.nil, rfl, nofun⟩
  have hstep : ∀ (past : List Input) (q : Queue) (i : Input), Inv (past.map Input.packet) q →
      Inv ((i :: past).map Input.packet) (ipFragQueue i.env q i.packet).2 :=
    fun _ _ i hq => (ipFragQueue_ok i.env i.packet hq).inv
  have hrun := foldl_invariant hstep past [] (fresh peer rid) hinit
  rw [append_nil, map_reverse] at hrun
  rcases hrun with hrun | hrun
  · exact .inl hrun
  · exact .inr (hrun.mono (fun p hp => mem_reverse.mp hp) rfl rfl le_rfl)

lemma noReset_append {q : Queue} {l1 l2 : List Input} :
    NoReset q (l1 ++ l2) ↔ NoReset q l1 ∧ NoReset (queueAfter q l1) l2 := by
  induction l1 generalizing q with
  | nil => exact ⟨fun h => ⟨trivial, h⟩, fun h => h.2⟩
  | cons i l1 ih =>
    rw [cons_append, NoReset, NoReset, ih, and_assoc]
    rfl

lemma getElem?_flatMap_bytes {l : List Skb} {a b : Nat}
    (h : skbSegment.Shows (fun _ => ()) a l b) {k : Nat} {v : UInt8}
    (hk : (l.flatMap Skb.bytes)[k]? = some v) :
    ∃ s ∈ l, ∃ j, s.bytes[j]? = some v ∧ s.offset + j = a + k := by
  induction l generalizing a k with
  | nil => cases hk
  | cons s l ih =>
    obtain ⟨hofs, -, -, hrest⟩ := Segment.shows_cons.mp h
    have hofs' : s.offset = a := hofs
    rw [flatMap_cons] at hk
    by_cases hlt : k < s.bytes.length
    · rw [List.getElem?_append_left hlt] at hk
      exact ⟨s, mem_cons_self, k, hk, by rw [hofs']⟩
    rw [List.getElem?_append_right (not_lt.mp hlt)] at hk
    obtain ⟨s', hs', j, hj, heq⟩ := ih hrest hk
    refine ⟨s', mem_cons_of_mem s hs', j, hj, ?_⟩
    have hlen := s.length_bytes
    have hsize : skbSegment.size s = s.len := rfl
    omega

lemma length_flatMap_bytes {l : List Skb} {a b : Nat} (h : skbSegment.Shows (fun _ => ()) a l b) :
    a + (l.flatMap Skb.bytes).length = b := by
  induction l generalizing a with
  | nil => exact h
  | cons s l ih =>
    obtain ⟨-, -, -, hrest⟩ := Segment.shows_cons.mp h
    have hsize : skbSegment.size s = s.len := rfl
    have := ih hrest
    rw [flatMap_cons, length_append, Skb.length_bytes]
    omega

lemma Partial.congr {ihl size : Nat} {past past' : List Packet} {q : Queue}
    (h : Partial ihl size past q) (hmem : ∀ p, p ∈ past ↔ p ∈ past') :
    Partial ihl size past' q where
  notComplete := h.notComplete
  ok := h.ok.mono (fun p hp => (hmem p).mp hp) rfl rfl le_rfl
  queued s hs := by
    obtain ⟨p, hp, hholds⟩ := h.queued s hs
    exact ⟨p, (hmem p).mp hp, hholds⟩
  there p hp := h.there p ((hmem p).mpr hp)
  first p hp := h.first p ((hmem p).mpr hp)
  last p hp := h.last p ((hmem p).mpr hp)
  len_le := h.len_le
  len_eq := h.len_eq

section

variable {ihl : Nat} {payload : List UInt8} {cut : List Piece}
variable (hcut : IsCut payload cut) (halign : ∀ x ∈ cut, x.offset % 8 = 0)
include hcut halign

lemma queueAfter_partial {x : Piece} (hx : x ∈ cut) (inputs : List Input) :
    ∀ (past : List Packet) (q : Queue), Partial ihl payload.length past q →
      (∀ p ∈ past, ∃ x ∈ cut, Carries ihl x p) →
      (∀ p ∈ past, ¬Carries ihl x p) →
      (∀ i ∈ inputs, i.env.Succeeds = true ∧ ∃ x ∈ cut, Carries ihl x i.packet) →
      NoReset q inputs → (∀ i ∈ inputs, ¬Carries ihl x i.packet) →
      Partial ihl payload.length (inputs.map Input.packet ++ past) (queueAfter q inputs) := by
  induction inputs with
  | nil =>
    intro past q h _ _ _ _ _
    exact h
  | cons i inputs ih =>
    intro past q h hpast hpastx hinputs hreset hmissing
    obtain ⟨henv, y, hy, hcarries⟩ := hinputs i mem_cons_self
    obtain ⟨q', prevs, hcall, hq'⟩ := ipFragQueue_piece hcut halign hpast hy
      hcarries h henv hreset.1
    have hpast' : ∀ p ∈ i.packet :: past, ∃ x ∈ cut, Carries ihl x p := by
      exact forall_mem_cons.mpr ⟨⟨y, hy, hcarries⟩, hpast⟩
    have hpastx' : ∀ p ∈ i.packet :: past, ¬Carries ihl x p := by
      exact forall_mem_cons.mpr ⟨hmissing i mem_cons_self, hpastx⟩
    have hnext : (ipFragQueue i.env q i.packet).2 = q' := by
      rw [hcall, ipFragFinish, hq'.not_done hcut hpast' hx hpastx']
      rfl
    have hreset' := hreset.2
    rw [hnext] at hreset'
    have hrest := ih (i.packet :: past) q' hq' hpast' hpastx'
      (fun j hj => hinputs j (mem_cons_of_mem i hj)) hreset'
      (fun j hj => hmissing j (mem_cons_of_mem i hj))
    have hrun : queueAfter q (i :: inputs) = queueAfter q' inputs :=
      congrArg (queueAfter · inputs) hnext
    rw [hrun]
    apply hrest.congr
    intro p
    simp only [map_cons, mem_append, mem_cons]
    exact or_left_comm.trans or_assoc.symm

end

/-- Reassembly is right. Whatever a queue is sent, its fragments are in
order and disjoint, every byte in it came for its position, and `meat` counts
them until they are delivered; `ip_frag_reasm` is called for fragments without
a hole, and the bytes it delivers came for their positions. The fragments of
one datagram, in any order and repeated at will, are delivered as soon as the
last missing one arrives. -/
theorem reassembly_correct (peer : Bool) (rid : BitVec 32) (past : List Input) :
    let q := queueAfter (fresh peer rid) past
    let received := past.map Input.packet
    (skbSegment.Apart q.fragments ∧ (q.meat = total q.fragments ∨
        q.complete = true ∧ q.fragments = []) ∧
      ∀ s ∈ q.fragments, ∀ k b, s.bytes[k]? = some b → ByteAt received (s.offset + k) b) ∧
    (∀ (i : Input) (entry : Queue) (res : Reasm),
      (ipFragQueue i.env q i.packet).1 = .reasm entry res →
      Covers entry ∧ entry.meat = total entry.fragments ∧ res ≠ .oops ∧
      ∀ d, res = .ok d → d.payload.length = entry.len ∧ ∀ k b, d.payload[k]? = some b →
          ByteAt (i.packet :: received) k b) ∧
    ∀ (ihl : Nat) (payload : List UInt8) (cut : List Piece) (i : Input),
      IsCut payload cut → ihl + payload.length ≤ 65535 →
      (∀ j ∈ past ++ [i], j.env.Succeeds = true ∧ ∃ x ∈ cut, Carries ihl x j.packet) →
      NoReset (fresh peer rid) (past ++ [i]) →
      (∃ x ∈ cut, ∀ j ∈ past, ¬Carries ihl x j.packet) →
      (∀ x ∈ cut, ∃ j ∈ past ++ [i], Carries ihl x j.packet) →
      ∃ entry d, (ipFragQueue i.env q i.packet).1 = .reasm entry (.ok d) ∧
        d.ihl = ihl ∧ d.payload = payload ∧
        d.totLen = ihl + payload.length := by
  intro q received
  have hinv : Inv received q := queueAfter_inv peer rid past
  refine ⟨?_, ?_, ?_⟩
  · rcases hinv with ⟨hcomplete, hempty⟩ | hok
    · rw [hempty]
      exact ⟨.nil, .inr ⟨hcomplete, rfl⟩, nofun⟩
    · exact ⟨hok.apart, .inl hok.meat, fun s hs => (hok.genuine s hs).bytes⟩
  · intro i entry res hcall
    obtain ⟨hok, hcovers, hoops, hbytes⟩ :=
      (ipFragQueue_ok i.env i.packet hinv).reasm entry res hcall
    refine ⟨hcovers, hok.meat, hoops, fun d hd => ?_⟩
    rw [hbytes d hd]
    refine ⟨?_, fun k b hk => ?_⟩
    · have := length_flatMap_bytes hcovers
      omega
    · obtain ⟨s, hs, j, hj, heq⟩ := getElem?_flatMap_bytes hcovers hk
      rw [← zero_add k, ← heq]
      exact (hok.genuine s hs).bytes j b hj
  · rintro ihl payload cut i hcut hfits hinputs hreset ⟨x, hx, hmissing⟩ hall
    have halign : ∀ y ∈ cut, y.offset % 8 = 0 := by
      intro y hy
      obtain ⟨j, -, hcarries⟩ := hall y hy
      rw [← hcarries.offset]
      exact j.packet.offset_mod
    obtain ⟨hreset₁, hreset₂⟩ := noReset_append.mp hreset
    have hinit : Partial ihl payload.length [] (fresh peer rid) :=
      ⟨rfl, ⟨.nil, rfl, nofun⟩, nofun, nofun, nofun, nofun, Nat.zero_le _, nofun⟩
    have hpartial := queueAfter_partial hcut halign hx past [] (fresh peer rid) hinit nofun nofun
      (fun j hj => hinputs j (mem_append_left _ hj)) hreset₁ hmissing
    rw [append_nil] at hpartial
    have hreceived : ∀ p ∈ received, ∃ x ∈ cut, Carries ihl x p := by
      intro p hp
      obtain ⟨j, hj, rfl⟩ := mem_map.mp hp
      exact (hinputs j (mem_append_left _ hj)).2
    obtain ⟨henv, y, hy, hcarries⟩ := hinputs i (mem_append_right _ (mem_singleton_self i))
    obtain ⟨q', prevs, hcall, hq'⟩ := ipFragQueue_piece hcut halign hreceived
      hy hcarries hpartial henv hreset₂.1
    have hall' : ∀ x ∈ cut, ∃ p ∈ i.packet :: received, Carries ihl x p := by
      intro x hx
      obtain ⟨j, hj, hjx⟩ := hall x hx
      rcases mem_append.mp hj with hj | hj
      · exact ⟨j.packet, mem_cons_of_mem _ (mem_map_of_mem hj), hjx⟩
      · obtain rfl := mem_singleton.mp hj
        exact ⟨j.packet, mem_cons_self, hjx⟩
    obtain ⟨d, hfinish, hihl, hpayload, hlen⟩ := hq'.reasm hcut hall' henv hfits hx prevs
    refine ⟨q', d, ?_, hihl, hpayload, hlen⟩
    rw [hcall, hfinish]

def quietEnv : Env := ⟨64, 0, true, true, true, true, true, true, false, true, true⟩

/-- Eight bytes at 0, more to come. -/
def firstPacket : Packet := ⟨0x2000, 20, [1, 2, 3, 4, 5, 6, 7, 8], [], false, by decide⟩

/-- The last two bytes, one of them on the `frag_list`. -/
def lastPacket : Packet := ⟨1, 20, [9], [10], false, by decide⟩

def emptyPacket : Packet := ⟨1, 20, [], [], false, by decide⟩

/-- The last fragment twice, and then the first one. -/
theorem reassembly_correct_two :
    ∃ entry d, (ipFragQueue quietEnv (queueAfter (fresh false 0)
        [⟨lastPacket, quietEnv⟩, ⟨lastPacket, quietEnv⟩]) firstPacket).1 = .reasm entry (.ok d) ∧
      d.payload = [1, 2, 3, 4, 5, 6, 7, 8, 9, 10] := by
  have hcut : IsCut [1, 2, 3, 4, 5, 6, 7, 8, 9, 10]
      [⟨0, [1, 2, 3, 4, 5, 6, 7, 8], true⟩, ⟨8, [9, 10], false⟩] := by
    refine ⟨⟨rfl, by decide, fun _ _ _ => rfl, rfl, by decide, fun _ _ _ => rfl, rfl⟩, rfl, ?_⟩
    exact forall_mem_cons.mpr ⟨by decide, forall_mem_singleton.mpr (by decide)⟩
  have hfirst : Carries 20 ⟨0, [1, 2, 3, 4, 5, 6, 7, 8], true⟩ firstPacket :=
    ⟨rfl, rfl, rfl, fun _ => rfl⟩
  have hlast : Carries 20 ⟨8, [9, 10], false⟩ lastPacket := ⟨rfl, rfl, rfl, fun _ => rfl⟩
  have hinputs : ∀ j ∈ [⟨lastPacket, quietEnv⟩, ⟨lastPacket, quietEnv⟩]
        ++ [(⟨firstPacket, quietEnv⟩ : Input)],
      j.env.Succeeds = true ∧ ∃ x ∈ [⟨0, [1, 2, 3, 4, 5, 6, 7, 8], true⟩,
        ⟨8, [9, 10], false⟩], Carries 20 x j.packet := by
    intro j hj
    rcases mem_append.mp hj with hj | hj
    · obtain rfl : j = ⟨lastPacket, quietEnv⟩ := by simpa using hj
      exact ⟨rfl, _, mem_cons_of_mem _ (mem_singleton_self _), hlast⟩
    · obtain rfl := mem_singleton.mp hj
      exact ⟨rfl, _, mem_cons_self, hfirst⟩
  have hmissing : ∀ j ∈ [⟨lastPacket, quietEnv⟩, (⟨lastPacket, quietEnv⟩ : Input)],
      ¬Carries 20 ⟨0, [1, 2, 3, 4, 5, 6, 7, 8], true⟩ j.packet := by
    intro j hj hcarries
    obtain rfl : j = ⟨lastPacket, quietEnv⟩ := by simpa using hj
    cases hcarries.offset
  obtain ⟨entry, d, hcall, -, hpayload, -⟩ := (reassembly_correct false 0
    [⟨lastPacket, quietEnv⟩, ⟨lastPacket, quietEnv⟩]).2.2 20 _ _
    ⟨firstPacket, quietEnv⟩ hcut (by decide) hinputs
    ⟨.inr rfl, .inr rfl, .inr rfl, trivial⟩
    ⟨_, mem_cons_self, hmissing⟩ (by
      exact forall_mem_cons.mpr ⟨⟨⟨firstPacket, quietEnv⟩, by simp, hfirst⟩,
        forall_mem_singleton.mpr ⟨⟨lastPacket, quietEnv⟩, by simp, hlast⟩⟩)
  exact ⟨entry, d, hcall, hpayload⟩

def deliveredQueue : Queue :=
  queueAfter (fresh false 0) [⟨lastPacket, quietEnv⟩, ⟨firstPacket, quietEnv⟩]

/-- After a delivery `meat` is not the number of bytes queued; and a datagram
whose last fragment is empty is not delivered when that one comes last. -/
theorem delivered_meat_and_empty_last :
    (deliveredQueue.fragments = [] ∧ deliveredQueue.meat = 10) ∧
    (ipFragQueue quietEnv (queueAfter (fresh false 0)
        [⟨firstPacket, quietEnv⟩]) emptyPacket).1 = .failed .inval := by
  decide

end BoardStack.IpFrag
