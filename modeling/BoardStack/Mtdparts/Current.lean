/-
The current partition.

`current_partnum` is a position in a list that changes under it. An insertion
or deletion in front of the current partition must move it by one, and the
source decides whether that is so by comparing offsets. In a list sorted by
offset the comparison is right for an insertion, and for the deletion of a
partition in front of the current one; it is wrong for a partition behind it
at the same offset. The number has eight bits.
-/
import BoardStack.Mtdparts.Generate
import Mathlib.Data.List.InsertIdx
import Mathlib.Data.List.Nodup

namespace BoardStack.Mtdparts

open List Option

variable {s s' : State} {dev dev' : MtdDevice} {part p : PartInfo}
  {parts : List PartInfo} {i j k : Nat}
variable {chips : Chips} {r : List PartInfo × Option PartInfo} {d : MtdDevice} {new : PartInfo}

-- == the runs

/-- A call of `part_add` or `part_del`, with the addresses of the device and,
for a deletion, of the partition. -/
inductive Op
  | add (dev : Nat) (part : PartInfo)
  | del (dev part : Nat)
deriving DecidableEq, Repr

/-- A call on devices and partitions that are there; a partition that is added
was allocated, so no other has its address. -/
def step (chips : Chips) (s : State) : Op → Option State
  | .add link part =>
    (s.device link).bind fun dev =>
      if ∀ d ∈ s.devices, ∀ p ∈ d.parts, p.link ≠ part.link then
        -- a call that returns 1 leaves everything as it was
        some ((partAdd chips s dev part).getD s)
      else none
  | .del link part =>
    (s.device link).bind fun dev =>
      (dev.parts.find? fun p => p.link == part).map (partDel s dev)

/-- The partition that `(current_dev, current_partnum)` designates. -/
def State.designated (s : State) : Option PartInfo :=
  s.currentDev.bind fun link =>
    (s.device link).bind fun dev => jffs2PartInfo dev s.currentPartnum

structure MtdDevice.Ok (d : MtdDevice) : Prop where
  count : d.numParts = d.parts.length
  pos : 0 < d.parts.length
  small : d.parts.length < 2 ^ 16
  sorted : d.parts.Pairwise fun p q => p.offset ≤ q.offset
  links : (d.parts.map (·.link)).Nodup
  parent : ∀ p ∈ d.parts, p.dev = d.link

structure State.Ok (s : State) : Prop where
  links : (s.devices.map (·.link)).Nodup
  devices : ∀ d ∈ s.devices, d.Ok
  byte : s.currentPartnum < 2 ^ 8
  current : s.devices = [] ∧ s.currentDev = none ∨
    ∃ d ∈ s.devices, s.currentDev = some d.link ∧ s.currentPartnum < d.numParts

-- == one list

lemma sortInsert_spec (h : sortInsert new parts = some r) :
    ∃ k, k ≤ parts.length ∧ r.1 = parts.insertIdx k new ∧ r.2 = parts[k]? ∧
      (∀ i q, i < k → parts[i]? = some q → q.offset < new.offset) ∧
      ∀ q, parts[k]? = some q → new.offset ≤ q.offset := by
  induction parts generalizing r with
  | nil =>
    obtain rfl := some.inj h
    exact ⟨0, le_rfl, rfl, rfl, fun i q hi => by omega, nofun⟩
  | cons pi rest ih =>
    unfold sortInsert at h
    split_ifs at h with hzero hle
    · obtain rfl := some.inj h
      refine ⟨0, Nat.zero_le _, rfl, rfl, fun i q hi => by omega, ?_⟩
      intro q hq
      obtain rfl := some.inj hq
      exact hle
    obtain ⟨r', hr', rfl⟩ := map_eq_some_iff.mp h
    obtain ⟨k, hk, hlist, hpi, hbefore, hat⟩ := ih hr'
    refine ⟨k + 1, Nat.succ_le_succ hk, ?_, hpi, ?_, hat⟩
    · rw [hlist, insertIdx_succ_cons]
    intro i q hi hq
    cases i with
    | zero =>
      obtain rfl := some.inj hq
      exact not_le.mp hle
    | succ i => exact hbefore i q (by omega) hq

lemma offset_le (hsorted : parts.Pairwise fun p q => p.offset ≤ q.offset) (hij : i ≤ j)
    {q : PartInfo} (hp : parts[i]? = some p) (hq : parts[j]? = some q) : p.offset ≤ q.offset := by
  obtain ⟨hi, rfl⟩ := List.getElem?_eq_some_iff.mp hp
  obtain ⟨hj, rfl⟩ := List.getElem?_eq_some_iff.mp hq
  rcases Nat.lt_or_eq_of_le hij with hlt | rfl
  · exact pairwise_iff_getElem.mp hsorted i j hi hj hlt
  · exact le_rfl

lemma movesCurrent_iff (hsorted : parts.Pairwise fun p q => p.offset ≤ q.offset)
    (hp : parts[i]? = some p) (hbefore : ∀ i q, i < k → parts[i]? = some q → q.offset < new.offset)
    (hat : ∀ q, parts[k]? = some q → new.offset ≤ q.offset) :
    movesCurrent (some p) parts[k]? = true ↔ k ≤ i := by
  have hi := (List.getElem?_eq_some_iff.mp hp).1
  cases hk : parts[k]? with
  | none =>
    have hlen := List.getElem?_eq_none_iff.mp hk
    constructor
    · intro h
      exact absurd h Bool.false_ne_true
    · omega
  | some pi =>
    have hnew := hat pi hk
    unfold movesCurrent
    rw [decide_eq_true_iff]
    constructor
    · intro hle
      by_contra hlt
      have hless := hbefore i p (by omega) hp
      omega
    · intro hle
      exact offset_le hsorted hle hk hp

lemma sortInsert_perm (h : sortInsert new parts = some r) : r.1.Perm (new :: parts) := by
  obtain ⟨k, hk, hlist, -⟩ := sortInsert_spec h
  rw [hlist]
  exact perm_insertIdx new parts hk

lemma sortInsert_sorted (hsorted : parts.Pairwise fun p q => p.offset ≤ q.offset)
    (h : sortInsert new parts = some r) :
    r.1.Pairwise fun p q => p.offset ≤ q.offset := by
  induction parts generalizing r with
  | nil =>
    obtain rfl := some.inj h
    exact pairwise_singleton _ _
  | cons pi rest ih =>
    obtain ⟨hpi, hrest⟩ := pairwise_cons.mp hsorted
    unfold sortInsert at h
    split_ifs at h with hzero hle
    · obtain rfl := some.inj h
      refine pairwise_cons.mpr ⟨?_, hsorted⟩
      exact forall_mem_cons.mpr ⟨hle, fun q hq => le_trans hle (hpi q hq)⟩
    obtain ⟨r', hr', rfl⟩ := map_eq_some_iff.mp h
    refine pairwise_cons.mpr ⟨?_, ih hrest hr'⟩
    intro q hq
    rcases mem_cons.mp ((sortInsert_perm hr').mem_iff.mp hq) with
      rfl | hq
    · omega
    · exact hpi q hq

lemma MtdDevice.Ok.insert (h : dev.Ok) (hsmall : dev.parts.length + 1 < 2 ^ 16)
    (hfresh : ∀ p ∈ dev.parts, p.link ≠ part.link) (hparent : part.dev = dev.link)
    (hins : sortInsert part dev.parts = some r) :
    MtdDevice.Ok { dev with parts := r.1, numParts := (dev.numParts + 1) % 2 ^ 16 } := by
  have hperm := sortInsert_perm hins
  have hlen : r.1.length = dev.parts.length + 1 := hperm.length_eq
  refine ⟨?_, ?_, ?_, sortInsert_sorted h.sorted hins, ?_, ?_⟩
  · rw [hlen, h.count, Nat.mod_eq_of_lt hsmall]
  · dsimp only
    omega
  · dsimp only
    omega
  · rw [(hperm.map _).nodup_iff, map_cons, nodup_cons]
    refine ⟨?_, h.links⟩
    intro hmem
    obtain ⟨p, hp, hlink⟩ := mem_map.mp hmem
    exact hfresh p hp hlink
  · intro p hp
    rcases mem_cons.mp (hperm.mem_iff.mp hp) with rfl | hp
    · exact hparent
    · exact h.parent p hp

lemma eraseP_eq_eraseIdx (hlinks : (parts.map (·.link)).Nodup) (hp : parts[j]? = some part) :
    (parts.eraseP fun p => p.link == part.link) = parts.eraseIdx j := by
  induction parts generalizing j with
  | nil => cases hp
  | cons q rest ih =>
    obtain ⟨hq, hrest⟩ := nodup_cons.mp hlinks
    cases j with
    | zero =>
      obtain rfl := some.inj hp
      exact eraseP_cons_of_pos BEq.rfl
    | succ j =>
      have hmem : part ∈ rest := mem_of_getElem? hp
      have hne : ¬(q.link == part.link) = true := by
        intro heq
        have hlink : q.link = part.link := beq_iff_eq.mp heq
        exact hq (mem_map.mpr ⟨part, hmem, hlink.symm⟩)
      rw [eraseIdx_cons_succ, ← ih hrest hp]
      exact eraseP_cons_of_neg hne

lemma MtdDevice.Ok.erase (h : dev.Ok) (htwo : dev.numParts ≠ 1) (hmem : part ∈ dev.parts) :
    MtdDevice.Ok { dev with
        parts := dev.parts.eraseP fun p => p.link == part.link
        numParts := (dev.numParts + 2 ^ 16 - 1) % 2 ^ 16 } := by
  have hcount := h.count
  have hpos := h.pos
  have hsmall := h.small
  have hsub : (dev.parts.eraseP fun p => p.link == part.link).Sublist
      dev.parts := eraseP_sublist
  have hlen : (dev.parts.eraseP fun p => p.link == part.link).length
      = dev.parts.length - 1 := length_eraseP_of_mem hmem BEq.rfl
  refine ⟨?_, ?_, ?_, h.sorted.sublist hsub, ?_, ?_⟩
  · dsimp only
    omega
  · dsimp only
    omega
  · dsimp only
    omega
  · exact h.links.sublist (hsub.map _)
  · intro p hp
    exact h.parent p (hsub.subset hp)

-- == one device

lemma State.Ok.eq_of_link (h : s.Ok) (hmem : dev ∈ s.devices)
    (hmem' : dev' ∈ s.devices) (hlink : dev'.link = dev.link) : dev' = dev :=
  inj_on_of_nodup_map h.links hmem' hmem hlink

lemma State.Ok.device_eq (h : s.Ok) (hmem : dev ∈ s.devices) : s.device dev.link = some dev := by
  unfold State.device
  cases hfind : s.devices.find? fun d => d.link == dev.link with
  | none =>
    have hnone := find?_eq_none.mp hfind dev hmem
    exact absurd BEq.rfl hnone
  | some d =>
    have hlink := find?_some hfind
    rw [h.eq_of_link hmem (mem_of_find?_eq_some hfind) (beq_iff_eq.mp hlink)]

lemma device_mem {link : Nat} (h : s.device link = some dev) : dev ∈ s.devices ∧ dev.link = link :=
  ⟨mem_of_find?_eq_some h, beq_iff_eq.mp (find?_some (p := (MtdDevice.link · == link)) h)⟩

lemma State.Ok.designated_eq (h : s.Ok) (hmem : dev ∈ s.devices)
    (hdev : s.currentDev = some dev.link) (hlt : s.currentPartnum < dev.numParts) :
    s.designated = dev.parts[s.currentPartnum]? := by
  unfold State.designated jffs2PartInfo
  rw [hdev, bind_some, h.device_eq hmem, bind_some, if_neg (not_le.mpr hlt)]

lemma mem_setDevice (h : d ∈ (s.setDevice dev').devices) :
    d = dev' ∨ d ∈ s.devices ∧ d.link ≠ dev'.link := by
  obtain ⟨e, he, rfl⟩ := mem_map.mp h
  split_ifs with hlink
  · exact .inl rfl
  · exact .inr ⟨he, hlink⟩

lemma mem_setDevice_self (hmem : dev ∈ s.devices)
    (hlink : dev'.link = dev.link) : dev' ∈ (s.setDevice dev').devices :=
  mem_map.mpr ⟨dev, hmem, if_pos hlink.symm⟩

lemma mem_setDevice_other (hmem : d ∈ s.devices)
    (hne : d.link ≠ dev'.link) : d ∈ (s.setDevice dev').devices :=
  mem_map.mpr ⟨d, hmem, if_neg hne⟩

lemma setDevice_links (s : State) (dev' : MtdDevice) :
    (s.setDevice dev').devices.map (·.link) = s.devices.map (·.link) := by
  unfold State.setDevice
  rw [List.map_map]
  apply map_congr_left
  intro d _
  rw [Function.comp_apply]
  split_ifs with hlink
  · exact hlink.symm
  · rfl

section

variable (h : s.Ok) (hmem : dev ∈ s.devices) (hlink : dev'.link = dev.link)
  {n : Nat} (hbyte : n < 2 ^ 8)
  (hother : s.currentDev ≠ some dev.link → n = s.currentPartnum)
include h hmem hlink hbyte hother

/-- Replacing a device keeps the state, if the current partition on it is
one of its partitions. -/
lemma State.Ok.replace (hok : dev'.Ok) (hcur : s.currentDev = some dev.link → n < dev'.numParts) :
    State.Ok { s.setDevice dev' with currentPartnum := n } := by
  refine ⟨?_, ?_, hbyte, ?_⟩
  · rw [setDevice_links]
    exact h.links
  · intro d hd
    rcases mem_setDevice hd with rfl | ⟨hd, -⟩
    · exact hok
    · exact h.devices d hd
  rcases h.current with ⟨hnil, -⟩ | ⟨d, hd, hdev, hlt⟩
  · simp [hnil] at hmem
  right
  by_cases hcase : s.currentDev = some dev.link
  · exact ⟨dev', mem_setDevice_self hmem hlink,
      hcase.trans (congrArg some hlink.symm), hcur hcase⟩
  refine ⟨d, mem_setDevice_other hd ?_, hdev, ?_⟩
  · intro heq
    exact hcase (by rw [hdev, heq, hlink])
  · rw [hother hcase]
    exact hlt

def Tracks (s s' : State) : Prop :=
  s'.Ok ∧ ∀ p, s.designated = some p → (∃ d ∈ s'.devices, p ∈ d.parts) → s'.designated = some p

/-- Replacing a device keeps the current partition where it keeps the
partition at its number. -/
lemma State.Ok.replace_tracks (hok : dev'.Ok)
    (hcur : s.currentDev = some dev.link → n < dev'.numParts)
    (htrack : s.currentDev = some dev.link → ∀ p, dev.parts[s.currentPartnum]? = some p →
      p ∈ dev'.parts → dev'.parts[n]? = some p) :
    Tracks s { s.setDevice dev' with currentPartnum := n } := by
  have h' := h.replace hmem hlink hbyte hother hok hcur
  refine ⟨h', fun p hp hhas => ?_⟩
  rcases h.current with ⟨hnil, -⟩ | ⟨d, hd, hdev, hlt⟩
  · simp [hnil] at hmem
  rw [h.designated_eq hd hdev hlt] at hp
  by_cases hcase : s.currentDev = some dev.link
  · obtain rfl : d = dev := h.eq_of_link hmem hd (some.inj (hdev.symm.trans hcase))
    have hself := mem_setDevice_self hmem hlink
    obtain ⟨e, he, hpe⟩ := hhas
    -- the partition names its device, so it is on the replaced one
    have hparent := (h.devices d hd).parent p (mem_of_getElem? hp)
    have hparent' := (h'.devices e he).parent p hpe
    obtain rfl : e = dev' := h'.eq_of_link hself he (by rw [← hparent', hparent, hlink])
    rw [h'.designated_eq hself (hcase.trans (congrArg some hlink.symm)) (hcur hcase)]
    exact htrack hcase p hp hpe
  · have hne : d.link ≠ dev'.link := by
      intro heq
      exact hcase (by rw [hdev, heq, hlink])
    have hn := hother hcase
    rw [h'.designated_eq (mem_setDevice_other hd hne) hdev (by dsimp only; rw [hn]; exact hlt)]
    rw [hn]
    exact hp

end

-- == the calls

/-- The calls that keep track: the device gets at most 256 partitions, and no
partition behind the current one at the same offset is deleted. -/
def Safe (s : State) : Op → Prop
  | .add link _ => ∀ dev ∈ s.devices, dev.link = link → dev.numParts < 2 ^ 8
  | .del link part => ∀ dev ∈ s.devices, dev.link = link →
      s.currentDev = some link → ∀ j p c, dev.parts[s.currentPartnum]? = some c →
        dev.parts[j]? = some p → p.link = part → s.currentPartnum < j →
        p.offset ≠ c.offset

lemma Tracks.refl (h : s.Ok) : Tracks s s := ⟨h, fun _ hp _ => hp⟩

lemma State.currentOn_eq {c : PartInfo} (hcase : s.currentDev = some dev.link)
    (hlt : s.currentPartnum < dev.numParts) (hc : dev.parts[s.currentPartnum]? = some c) :
    s.currentOn dev = some c := by
  unfold State.currentOn jffs2PartInfo
  rw [if_pos hcase, if_neg (not_le.mpr hlt), hc]

lemma State.Ok.current_on (h : s.Ok) (hmem : dev ∈ s.devices)
    (hcase : s.currentDev = some dev.link) :
    ∃ c, dev.parts[s.currentPartnum]? = some c ∧
      s.currentPartnum < dev.numParts ∧ s.currentOn dev = some c := by
  rcases h.current with ⟨-, hnone⟩ | ⟨d, hd, hdev, hlt⟩
  · simp [hnone] at hcase
  obtain rfl : d = dev := h.eq_of_link hmem hd (some.inj (hdev.symm.trans hcase))
  have hlen : s.currentPartnum < d.parts.length := by
    rw [← (h.devices d hd).count]
    exact hlt
  have hc := getElem?_eq_getElem hlen
  exact ⟨_, hc, hlt, State.currentOn_eq hcase hlt hc⟩

lemma partSortAdd_tracks (h : s.Ok) (hmem : dev ∈ s.devices) (hsmall : dev.numParts < 2 ^ 8)
    (hfresh : ∀ p ∈ dev.parts, p.link ≠ part.link)
    (hadd : partSortAdd s dev part = some s') : Tracks s s' := by
  have hdev := h.devices dev hmem
  have hcount := hdev.count
  obtain ⟨r, hins, rfl⟩ := map_eq_some_iff.mp hadd
  have hok : MtdDevice.Ok { dev with parts := r.1, numParts := (dev.numParts + 1) % 2 ^ 16 } :=
    hdev.insert (by omega) (by exact hfresh) (by exact rfl) hins
  obtain ⟨k, hk, hlist, hpi, hbefore, hat⟩ := sortInsert_spec hins
  generalize hnum : (if movesCurrent (s.currentOn dev) r.2 then
    (s.currentPartnum + 1) % 2 ^ 8 else s.currentPartnum) = num
  have hother : s.currentDev ≠ some dev.link → num = s.currentPartnum := by
    intro hne
    rw [← hnum]
    unfold State.currentOn
    rw [if_neg hne]
    rfl
  have hsame : s.currentDev = some dev.link → num
      = if k ≤ s.currentPartnum then s.currentPartnum + 1 else s.currentPartnum := by
    intro hcase
    rw [← hnum]
    obtain ⟨c, hc, hlt, hon⟩ := h.current_on hmem hcase
    have hmoves := movesCurrent_iff hdev.sorted hc hbefore hat
    rw [hon, hpi]
    by_cases hki : k ≤ s.currentPartnum
    · rw [if_pos (hmoves.mpr hki), if_pos hki, Nat.mod_eq_of_lt (by omega)]
    · rw [if_neg (fun hm => hki (hmoves.mp hm)), if_neg hki]
  have hcur : s.currentDev = some dev.link → num < (dev.numParts + 1) % 2 ^ 16 := by
    intro hcase
    obtain ⟨c, hc, hlt, -⟩ := h.current_on hmem hcase
    rw [hsame hcase, Nat.mod_eq_of_lt (by omega)]
    split_ifs <;> omega
  have hbyte : num < 2 ^ 8 := by
    have hb := h.byte
    rw [← hnum]
    split_ifs <;> omega
  refine h.replace_tracks hmem (by exact rfl) hbyte hother hok hcur ?_
  intro hcase p hpi _
  rw [hsame hcase]
  rw [hlist]
  split_ifs with hki
  · rw [getElem?_insertIdx_of_gt (by omega), Nat.add_sub_cancel, hpi]
  · rw [getElem?_insertIdx_of_lt (by omega), hpi]

lemma mem_deleted :
    d ∈ s.devices.filter (fun d => d.link != dev.link) ↔ d ∈ s.devices ∧ d.link ≠ dev.link := by
  rw [mem_filter, bne_iff_ne]

lemma deviceDel_tracks (h : s.Ok) (hmem : dev ∈ s.devices) : Tracks s (deviceDel s dev) := by
  have hlinks := h.links.sublist ((filter_sublist (p := (MtdDevice.link · != dev.link))).map _)
  have hdevices : ∀ d ∈ s.devices.filter (fun d => d.link != dev.link),
      d.Ok := fun d hd => h.devices d (mem_deleted.mp hd).1
  unfold deviceDel
  dsimp only
  split_ifs with hcase
  · -- the current partition is gone with its device
    have hgone : ∀ p, s.designated = some p → ¬∃ d ∈ s.devices.filter (fun d => d.link != dev.link),
          p ∈ d.parts := by
      rintro p hp ⟨d, hd, hpd⟩
      obtain ⟨c, hc, hlt, -⟩ := h.current_on hmem hcase
      rw [h.designated_eq hmem hcase hlt] at hp
      have hparent := (h.devices dev hmem).parent p (mem_of_getElem? hp)
      have hparent' := (hdevices d hd).parent p hpd
      exact (mem_deleted.mp hd).2 (hparent'.symm.trans hparent)
    split
    next hnil =>
      refine ⟨⟨hlinks, hdevices, h.byte, .inl ⟨hnil, rfl⟩⟩, ?_⟩
      intro p hp hhas
      exact absurd hhas (hgone p hp)
    next first rest hfirst =>
      have hin : first ∈ s.devices.filter (fun d => d.link != dev.link) := by
        rw [hfirst]
        exact mem_cons_self
      refine ⟨⟨hlinks, hdevices, Nat.two_pow_pos 8, .inr ⟨first, hin, rfl, ?_⟩⟩, ?_⟩
      · have hok := hdevices first hin
        rw [hok.count]
        exact hok.pos
      · intro p hp hhas
        exact absurd hhas (hgone p hp)
  · rcases h.current with ⟨hnil, -⟩ | ⟨d, hd, hdev, hlt⟩
    · simp [hnil] at hmem
    have hin : d ∈ s.devices.filter (fun d => d.link != dev.link) :=
      mem_deleted.mpr ⟨hd, fun heq => hcase (by rw [hdev, heq])⟩
    have h' : State.Ok { s with
        devices := s.devices.filter fun d => d.link != dev.link } :=
      ⟨hlinks, hdevices, h.byte, .inr ⟨d, hin, hdev, hlt⟩⟩
    refine ⟨h', ?_⟩
    intro p hp _
    rw [h.designated_eq hd hdev hlt] at hp
    rw [h'.designated_eq hin hdev hlt]
    exact hp

lemma index_unique (hlinks : (parts.map (·.link)).Nodup) {q : PartInfo}
    (hp : parts[i]? = some p) (hq : parts[j]? = some q) (hlink : p.link = q.link) : i = j := by
  have hi : (parts.map (·.link))[i]? = some p.link := by
    rw [getElem?_map, hp, map_some]
  have hj : (parts.map (·.link))[j]? = some p.link := by
    rw [getElem?_map, hq, map_some, hlink]
  obtain ⟨hilt, hi⟩ := List.getElem?_eq_some_iff.mp hi
  obtain ⟨hjlt, hj⟩ := List.getElem?_eq_some_iff.mp hj
  exact (hlinks.getElem_inj_iff).mp (hi.trans hj.symm)

lemma partDel_tracks (h : s.Ok) (hmem : dev ∈ s.devices)
    (hpart : dev.parts[j]? = some part) (hsafe : s.currentDev = some dev.link →
      ∀ c, dev.parts[s.currentPartnum]? = some c → s.currentPartnum < j → part.offset ≠ c.offset) :
    Tracks s (partDel s dev part) := by
  have hdev := h.devices dev hmem
  have hcount := hdev.count
  have hj := (List.getElem?_eq_some_iff.mp hpart).1
  unfold partDel
  split_ifs with hone
  · exact deviceDel_tracks h hmem
  have hok := hdev.erase hone (mem_of_getElem? hpart)
  have herase := eraseP_eq_eraseIdx hdev.links hpart
  have hother : s.currentDev ≠ some dev.link →
      partnumAfterDel (s.currentOn dev) part s.currentPartnum = s.currentPartnum := by
    intro hne
    unfold State.currentOn
    rw [if_neg hne]
    rfl
  have hnext : s.currentDev = some dev.link →
      partnumAfterDel (s.currentOn dev) part s.currentPartnum
        = if s.currentPartnum = j then 0 else if j < s.currentPartnum then s.currentPartnum - 1
          else s.currentPartnum := by
    intro hcase
    obtain ⟨c, hc, hlt, hon⟩ := h.current_on hmem hcase
    rw [hon]
    unfold partnumAfterDel
    dsimp only
    by_cases hjc : s.currentPartnum = j
    · rw [hjc, hpart] at hc
      rw [if_pos hjc, some.inj hc, if_pos rfl]
    have hlink : c.link ≠ part.link := fun heq => hjc (index_unique hdev.links hc hpart heq)
    rw [if_neg hlink, if_neg hjc]
    have hb := h.byte
    by_cases hfront : j < s.currentPartnum
    · rw [if_pos (offset_le hdev.sorted (le_of_lt hfront) hpart hc), if_pos hfront]
      omega
    · have hbehind : s.currentPartnum < j := by omega
      have hle := offset_le hdev.sorted (le_of_lt hbehind) hc hpart
      have hoffset := hsafe hcase c hc hbehind
      rw [if_neg (by omega), if_neg hfront]
  have hbyte : partnumAfterDel (s.currentOn dev) part s.currentPartnum < 2 ^ 8 := by
    have hb := h.byte
    unfold partnumAfterDel
    cases s.currentOn dev with
    | none => exact hb
    | some c =>
      dsimp only
      split_ifs <;> omega
  have hcur : s.currentDev = some dev.link → partnumAfterDel (s.currentOn dev) part s.currentPartnum
        < (dev.numParts + 2 ^ 16 - 1) % 2 ^ 16 := by
    intro hcase
    obtain ⟨c, hc, hlt, hon⟩ := h.current_on hmem hcase
    have hsmall := hdev.small
    rw [show (dev.numParts + 2 ^ 16 - 1) % 2 ^ 16 = dev.numParts - 1 by omega, hnext hcase]
    split_ifs <;> omega
  refine h.replace_tracks hmem (by exact rfl) hbyte hother hok hcur ?_
  intro hcase p hpi hin
  dsimp only at hin ⊢
  rw [herase] at hin ⊢
  by_cases hjc : s.currentPartnum = j
  · -- the current partition itself was deleted
    obtain ⟨i, hne, hi⟩ := mem_eraseIdx_iff_getElem?.mp hin
    exact absurd (index_unique hdev.links hi hpi rfl) (by omega)
  · rw [hnext hcase, if_neg hjc]
    split_ifs with hfront
    · rw [getElem?_eraseIdx_of_ge (by omega), Nat.sub_add_cancel (by omega), hpi]
    · rw [getElem?_eraseIdx_of_lt (by omega), hpi]

lemma partValidate_link {id : MtdIds} {part' : PartInfo}
    (h : partValidate chips id part = some part') : part'.link = part.link := by
  unfold partValidate at h
  dsimp only at h
  split_ifs at h with hsize
  all_goals
    obtain rfl := some.inj h
    rfl

/-- One call keeps track. -/
theorem step_tracks {op : Op} (h : s.Ok) (hsafe : Safe s op)
    (hstep : step chips s op = some s') : Tracks s s' := by
  cases op with
  | add link part =>
    obtain ⟨dev, hdev, hstep⟩ := bind_eq_some_iff.mp hstep
    obtain ⟨hmem, hlink⟩ := device_mem hdev
    split_ifs at hstep with hfresh
    obtain rfl := some.inj hstep
    cases hadd : partAdd chips s dev part with
    | none => exact Tracks.refl h
    | some s' =>
      obtain ⟨part', hvalid, hadd⟩ := bind_eq_some_iff.mp hadd
      have hsame := partValidate_link hvalid
      apply partSortAdd_tracks h hmem (hsafe dev hmem hlink) _ hadd
      intro p hp
      rw [hsame]
      exact hfresh dev hmem p hp
  | del link part =>
    obtain ⟨dev, hdev, hstep⟩ := bind_eq_some_iff.mp hstep
    obtain ⟨hmem, hlink⟩ := device_mem hdev
    obtain ⟨p, hfind, rfl⟩ := map_eq_some_iff.mp hstep
    have hp := mem_of_find?_eq_some hfind
    have hpl : p.link = part := beq_iff_eq.mp (find?_some (p := (PartInfo.link · == part)) hfind)
    obtain ⟨j, hj⟩ := mem_iff_getElem?.mp hp
    apply partDel_tracks h hmem hj
    intro hcase c hc hbehind
    exact hsafe dev hmem hlink (by rw [hcase, hlink]) j p c hc hj hpl hbehind

/-- The states that calls lead to, as long as they keep track. -/
inductive Reachable (chips : Chips) (s₀ : State) : State → Prop
  | start : Reachable chips s₀ s₀
  | call {s s' : State} {op : Op} : Reachable chips s₀ s → Safe s op →
      step chips s op = some s' → Reachable chips s₀ s'

lemma Reachable.ok {s₀ : State} (h₀ : s₀.Ok) (h : Reachable chips s₀ s) : s.Ok := by
  induction h with
  | start => exact h₀
  | call _ hsafe hstep ih => exact (step_tracks ih hsafe hstep).1

/-- The current partition is tracked. After any calls from a state as the
source keeps it, of which none deletes a partition behind the current one at
its offset or gives a device more than 256 partitions: a further such call
leaves the current partition what it was if it is still there, and the number
is always that of a partition of the current device. -/
theorem current_partition_tracked {chips : Chips} {s₀ : State} {op : Op} (h₀ : s₀.Ok)
    (hreach : Reachable chips s₀ s) (hsafe : Safe s op) (hstep : step chips s op = some s') :
    (∀ p, s.designated = some p → (∃ d ∈ s'.devices, p ∈ d.parts) → s'.designated = some p) ∧
    ∀ d ∈ s'.devices, s'.currentDev = some d.link → s'.currentPartnum < d.numParts := by
  obtain ⟨hok, htracks⟩ := step_tracks (hreach.ok h₀) hsafe hstep
  refine ⟨htracks, ?_⟩
  intro d hd hdev
  obtain ⟨c, -, hlt, -⟩ := hok.current_on hd hdev
  exact hlt

/-- A NAND chip with blocks of 4096 bytes. -/
def smallBlocks : Chips := ⟨fun _ => 4096, fun _ => [], fun _ => 0⟩

/-- A partition of one block, the second of the chip. -/
def secondBlock (link : Nat) : PartInfo := ⟨link, [], false, 4096, 4096, 0, 1⟩

def onePartition : State := ⟨[⟨1, ⟨.nand, 0, 1048576, []⟩, 1, [secondBlock 2]⟩], some 1, 0⟩

theorem onePartition_tracked :
    ∃ s', step smallBlocks onePartition (.add 1 (secondBlock 3)) = some s' ∧
      (∀ p, onePartition.designated = some p →
        (∃ d ∈ s'.devices, p ∈ d.parts) → s'.designated = some p) ∧
      ∀ d ∈ s'.devices, s'.currentDev = some d.link → s'.currentPartnum < d.numParts := by
  have hdevice : ∀ d ∈ onePartition.devices, d = ⟨1, ⟨.nand, 0, 1048576, []⟩, 1, [secondBlock 2]⟩ :=
    fun d hd => mem_singleton.mp hd
  have hok : onePartition.Ok := by
    refine ⟨by decide, ?_, by decide, .inr ⟨_, mem_cons_self, rfl, ?_⟩⟩
    · intro d hd
      obtain rfl := hdevice d hd
      exact ⟨rfl, by decide, by decide, by decide, by decide, by decide⟩
    · decide
  have hsafe : Safe onePartition (.add 1 (secondBlock 3)) := by
    intro d hd _
    obtain rfl := hdevice d hd
    decide
  have hstep : step smallBlocks onePartition (.add 1 (secondBlock 3)) = some _ := rfl
  exact ⟨_, hstep, current_partition_tracked hok .start hsafe hstep⟩

/-- Three partitions at one offset: the current one, which is the last, is
deleted, so the first is current; then the second is deleted, and the number
of the current one wraps. -/
theorem delete_behind_loses_current :
    ∃ s s', [Op.add 1 (secondBlock 3), .add 1 (secondBlock 4), .del 1 2].foldlM
        (step smallBlocks) onePartition = some s ∧
      s.designated = some (secondBlock 4) ∧
      step smallBlocks s (.del 1 3) = some s' ∧
      (∃ d ∈ s'.devices, secondBlock 4 ∈ d.parts) ∧
      s'.designated = none ∧ s'.currentPartnum = 255 := by
  exact ⟨_, _, rfl, rfl, rfl, by decide, rfl, rfl⟩

end BoardStack.Mtdparts
