/-
The radix tree as a tagged map, over whole runs.

A client of lib/radix-tree.c sees a partial map from indices to items, each
with a set of tags. `radixContract` says what each call does to that map;
`radixStep_refines` that each call of the code does it; `run_refines` carries
this over runs. That the tag bits are exact is stated over the map alone:
`TagsExact` says of every slot of every node, and of the root, that a
tag bit is set exactly when some index below the slot carries the tag in the
map.
-/
import BoardStack.Base.Run
import BoardStack.Radix.Proofs.Delete

namespace BoardStack.Radix

open Base Function BitVec Nat

-- == the abstract map

/-- The map a client has in mind: the item at each index, and its tags. -/
abbrev TagMap (k : Config) (α : Type) := Index k → Option (α × Tags)

variable {k : Config} {α : Type}

def TagMap.empty : TagMap k α := fun _ => none

/-- A call. For an insertion the allocator has `avail` new nodes. -/
inductive Op (k : Config) (α : Type) where
  | insert (avail : Nat) (index : Index k) (item : α)
  | delete (index : Index k)
  | tagSet (index : Index k) (tag : Fin maxTags)
  | tagClear (index : Index k) (tag : Fin maxTags)

inductive Out (α : Type) where
  | status (ret : Int)
  | pointer (item : Option α)

structure State (k : Config) (α : Type) where
  root : Root k α
  slab : List (Node k α)

def radixStep (s : State k α) : Op k α → Option (Out α × State k α)
  | .insert avail index item =>
    (radixTreeInsert s.root index item ⟨s.slab, avail⟩).map
      fun (ret, root, mem) => (.status ret, ⟨root, mem.slab⟩)
  | .delete index =>
    (radixTreeDelete s.root index ⟨s.slab, 0⟩).map
      fun (item, root, mem) => (.pointer item, ⟨root, mem.slab⟩)
  | .tagSet index tag =>
    (radixTreeTagSet s.root index tag).map fun (item, root) => (.pointer item, ⟨root, s.slab⟩)
  | .tagClear index tag =>
    (radixTreeTagClear s.root index tag).map fun (item, root) => (.pointer item, ⟨root, s.slab⟩)

/-- What clients promise: nodes can be allocated, and only items that are
present are tagged. -/
def callPre (m : TagMap k α) : Op k α → Prop
  | .insert avail _ _ => 2 * maxPath k ≤ avail
  | .tagSet index _ => m index ≠ none
  | _ => True

def callOut (m : TagMap k α) : Op k α → Out α → Prop
  | .insert _ index _, o =>
    (m index = none → o = .status 0) ∧ (m index ≠ none → o = .status (-EEXIST))
  | .delete index, o => o = .pointer ((m index).map Prod.fst)
  | .tagSet index _, o => o = .pointer ((m index).map Prod.fst)
  | .tagClear index _, o => o = .pointer ((m index).map Prod.fst)

def callNext (m : TagMap k α) : Op k α → TagMap k α
  | .insert _ index item =>
    match m index with
    | none => update m index (some (item, noTags))
    | some _ => m
  | .delete index => update m index none
  | .tagSet index tag =>
    update m index ((m index).map fun (v, tg) => (v, update tg tag true))
  | .tagClear index tag =>
    update m index ((m index).map fun (v, tg) => (v, update tg tag false))

def radixContract (k : Config) (α : Type) : Contract (TagMap k α) (Op k α) (Out α) where
  pre := callPre
  out := callOut
  next := callNext

-- == representation

/-- A tree represents a map: index by index, with nothing outside the word,
and a slab of clean nodes. -/
structure Represents (s : State k α) (m : TagMap k α) : Prop where
  inv : RootInv s.root
  slab : ∀ n ∈ s.slab, Clean n
  map : ∀ i, absMap s.root i = if i < 2 ^ k.word.bits then m (BitVec.ofNat _ i) else none

variable {m : TagMap k α} {s : State k α}

lemma Represents.at_index (h : Represents s m) (index : Index k) :
    absMap s.root index.toNat = m index := by
  rw [h.map, if_pos index.isLt, ofNat_toNat, setWidth_eq]

lemma Represents.update {s s' : State k α} {index : Index k} {x : Option (α × Tags)}
    (h : Represents s m) (hslab : ∀ n ∈ s'.slab, Clean n)
    (hnew : Changed s.root s'.root index.toNat x) : Represents s' (update m index x) := by
  refine ⟨hnew.inv, hslab, fun i => ?_⟩
  rw [hnew.map, h.map]
  by_cases hi : i < 2 ^ k.word.bits
  · have heq : (BitVec.ofNat k.word.bits i = index) ↔ i = index.toNat := by
      constructor
      · intro he
        rw [← he, toNat_ofNat, mod_eq_of_lt hi]
      · rintro rfl
        rw [ofNat_toNat, setWidth_eq]
    simp only [hi, if_true, update_apply, heq]
  · have hne : i ≠ index.toNat := fun he => hi (he ▸ index.isLt)
    simp only [hi, hne, if_false]

lemma represents_init {mask : BitVec 32} (hmask : mask.toNat < 2 ^ gfpBitsShift) :
    Represents (⟨initRadixTree mask, []⟩ : State k α) TagMap.empty := by
  have hnone : rootTagGet (initRadixTree mask : Root k α) = noTags := by
    funext t
    rw [rootTagGet_eq]
    show mask.getLsbD (t.val + gfpBitsShift) = false
    refine testBit_lt_two_pow (lt_of_lt_of_le hmask ?_)
    exact Nat.pow_le_pow_right (by decide) (Nat.le_add_left _ _)
  refine ⟨⟨Nat.zero_le _, rfl, ?_⟩, fun n hn => ?_, fun i => ?_⟩
  · rw [hnone]
    exact cellInv_null 0
  · cases hn
  · unfold absMap
    simp [initRadixTree, TagMap.empty]

lemma radixStep_refines (s : State k α) (m : TagMap k α) (op : Op k α)
    (hR : Represents s m) (hpre : (radixContract k α).pre m op) :
    ∃ o s', radixStep s op = some (o, s') ∧ (radixContract k α).out m op o ∧
      Represents s' ((radixContract k α).next m op) := by
  have hout : ∀ index x, m index = x →
      Out.pointer ((m index).map Prod.fst) = .pointer (x.map Prod.fst) := fun _ _ hm => hm ▸ rfl
  cases op with
  | insert avail index item =>
    have hmem : MemOk (⟨s.slab, avail⟩ : Mem k α) (2 * maxPath k) :=
      ⟨hR.slab, le_trans hpre (Nat.le_add_left _ _)⟩
    obtain ⟨hfree, hheld⟩ := radixTreeInsert_spec hR.inv hmem index item
    rw [hR.at_index] at hfree hheld
    cases hm : m index with
    | none =>
      obtain ⟨root', mem', hrun, hmem, hnew⟩ := hfree hm
      refine ⟨.status 0, ⟨root', mem'.slab⟩, by simp only [radixStep, hrun]; rfl,
        ⟨fun _ => rfl, fun hne => absurd hm hne⟩, ?_⟩
      show Represents _ (callNext m (.insert avail index item))
      rw [callNext, hm]
      exact hR.update hmem.clean hnew
    | some x =>
      have hrun := hheld (by simp [hm])
      refine ⟨.status (-EEXIST), s, by simp only [radixStep, hrun]; rfl,
        ⟨fun hnone => ?_, fun _ => rfl⟩, ?_⟩
      · simp [hm] at hnone
      · show Represents s (callNext m (.insert avail index item))
        rw [callNext, hm]
        exact hR
  | delete index =>
    have hmem0 : MemOk (⟨s.slab, 0⟩ : Mem k α) 0 := ⟨hR.slab, Nat.zero_le _⟩
    obtain ⟨root', mem', hrun, hmem, hnew⟩ := radixTreeDelete_spec hR.inv hmem0 index
    rw [hR.at_index] at hrun
    exact ⟨.pointer ((m index).map Prod.fst), ⟨root', mem'.slab⟩,
      by simp only [radixStep, hrun]; rfl, rfl, hR.update hmem.clean hnew⟩
  | tagSet index tag =>
    obtain ⟨⟨v, tg⟩, hm⟩ := Option.ne_none_iff_exists'.mp hpre
    have hheld := (hR.at_index index).trans hm
    obtain ⟨root', hrun, hnew⟩ := radixTreeTagSet_spec hR.inv hheld tag
    refine ⟨.pointer (some v), ⟨root', s.slab⟩, by simp only [radixStep, hrun]; rfl,
      (hout index _ hm).symm, ?_⟩
    show Represents _ (callNext m (.tagSet index tag))
    rw [callNext, hm]
    exact hR.update hR.slab hnew
  | tagClear index tag =>
    obtain ⟨hheld, hfree⟩ := radixTreeTagClear_spec hR.inv index tag
    rw [hR.at_index] at hheld hfree
    cases hm : m index with
    | none =>
      refine ⟨.pointer none, s, by simp only [radixStep, hfree hm]; rfl, (hout index _ hm).symm, ?_⟩
      show Represents s (callNext m (.tagClear index tag))
      rw [callNext, hm, Option.map_none, ← hm, update_eq_self]
      exact hR
    | some x =>
      obtain ⟨v, tg⟩ := x
      obtain ⟨root', hrun, -, hnew⟩ := hheld v tg hm
      refine ⟨.pointer (some v), ⟨root', s.slab⟩, by simp only [radixStep, hrun]; rfl,
        (hout index _ hm).symm, ?_⟩
      show Represents _ (callNext m (.tagClear index tag))
      rw [callNext, hm]
      exact hR.update hR.slab hnew

-- == exact tags

/-- The tag bits of a slot that covers `span` indices from `base` on are
exact: set when, and only when, an index there carries the tag. -/
def SlotTags (m : TagMap k α) (h base : Nat) (own : Tags) : Prop :=
  ∀ t, own t = true ↔ ∃ (index : Index k) (v : α) (tg : Tags),
    base ≤ index.toNat ∧ index.toNat < base + span k.mapShift h ∧
      m index = some (v, tg) ∧ tg t = true

/-- The tag bits of a slot and of every slot below it are exact. -/
def TagsExact (m : TagMap k α) : Nat → Nat → Tags → Slot k α → Prop
  | h + 1, base, own, .node _ _ slots tags =>
    SlotTags m (h + 1) base own ∧ ∀ d, d < mapSize k → TagsExact m h (base + d * span k.mapShift h)
        (tagsAt tags d) (slots d)
  | h, base, own, _ => SlotTags m h base own

structure Shows (m : TagMap k α) (h base : Nat) (own : Tags) (p : Slot k α) : Prop where
  aligned : base % span k.mapShift h = 0
  inside : ∀ index : Index k, base ≤ index.toNat → index.toNat < base + span k.mapShift h →
    m index = view h own p index.toNat
  word : ∀ j, j < span k.mapShift h → view h own p j ≠ none → base + j < 2 ^ k.word.bits

lemma Shows.slotTags {h base : Nat} {own : Tags}
    {p : Slot k α} (hs : Shows m h base own p) (hinv : CellInv h own p) :
    SlotTags m h base own := by
  intro t
  rw [own_iff_tagged t _ _ _ hinv]
  constructor
  · rintro ⟨i, v, tg, hview, htg⟩
    have hj : i % span k.mapShift h < span k.mapShift h := mod_lt _ (span_pos _ _)
    rw [← view_mod] at hview
    have hword := hs.word _ hj (by simp [hview])
    have hnat : (BitVec.ofNat k.word.bits (base + i % span k.mapShift h)).toNat
        = base + i % span k.mapShift h := by
      rw [toNat_ofNat, mod_eq_of_lt hword]
    refine ⟨BitVec.ofNat _ (base + i % span k.mapShift h), v, tg, ?_, ?_, ?_, htg⟩
    · omega
    · omega
    · rw [hs.inside _ (by omega) (by omega), hnat, ← view_mod, add_mod,
        hs.aligned, zero_add, mod_mod, mod_mod, hview]
  · rintro ⟨index, v, tg, hge, hlt, hm, htg⟩
    exact ⟨index.toNat, v, tg, by rw [← hs.inside index hge hlt, hm], htg⟩

lemma digit_of_block {base h d i : Nat} (hbase : base % span k.mapShift (h + 1) = 0)
    (hd : d < mapSize k) (hge : base + d * span k.mapShift h ≤ i)
    (hlt : i < base + d * span k.mapShift h + span k.mapShift h) :
    digit k.mapShift h i = d := by
  obtain ⟨r, rfl⟩ : ∃ r, i = base + d * span k.mapShift h + r := Nat.exists_eq_add_of_le hge
  have hr : r < span k.mapShift h := by omega
  rw [← digit_mod (lt_succ_self h), add_assoc, add_mod, hbase,
    zero_add, mod_mod, digit_mod (lt_succ_self h)]
  exact digit_block hd hr

lemma Shows.child {h base height count : Nat} {own : Tags} {slots : Nat → Slot k α}
    {tags : Fin maxTags → BitVec (tagBits k)}
    (hs : Shows m (h + 1) base own (.node height count slots tags)) {d : Nat} (hd : d < mapSize k) :
    Shows m h (base + d * span k.mapShift h) (tagsAt tags d) (slots d) := by
  have hblock : (d + 1) * span k.mapShift h ≤ span k.mapShift (h + 1) := by
    rw [span_succ]
    exact Nat.mul_le_mul_right _ hd
  rw [Nat.succ_mul] at hblock
  refine ⟨?_, ?_, ?_⟩
  · have hdvd : span k.mapShift h ∣ base := by
      refine dvd_trans ⟨2 ^ k.mapShift, ?_⟩ (dvd_of_mod_eq_zero hs.aligned)
      rw [span_succ, mul_comm]
    exact mod_eq_zero_of_dvd (Nat.dvd_add hdvd (Nat.dvd_mul_left _ _))
  · intro index hge hlt
    rw [hs.inside index (by omega) (by omega), view_node, digit_of_block hs.aligned hd hge hlt]
  intro j hj hview
  have hdig : digit k.mapShift h (d * span k.mapShift h + j) = d := digit_block hd hj
  rw [add_assoc]
  refine hs.word _ (by omega) ?_
  rw [view_node, hdig, ← view_mod, mul_add_mod_self_right, mod_eq_of_lt hj]
  exact hview

lemma tagsExact_of_shows :
    ∀ (h base : Nat) (own : Tags) (p : Slot k α), CellInv h own p →
      Shows m h base own p → TagsExact m h base own p := by
  intro h
  induction h with
  | zero =>
    intro base own p hinv hs
    exact hs.slotTags hinv
  | succ h ih =>
    intro base own p hinv hs
    cases p with
    | null => exact hs.slotTags hinv
    | item v => exact hinv.elim
    | node height count slots tags =>
      exact ⟨hs.slotTags hinv, fun d hd => ih _ _ _ (hinv.2.2.1 d hd) (hs.child hd)⟩

lemma Represents.shows (hR : Represents s m) :
    Shows m s.root.height 0 (rootTagGet s.root) s.root.rnode.ptr := by
  refine ⟨zero_mod _, ?_, ?_⟩
  · intro index _ hlt
    rw [zero_add] at hlt
    rw [← hR.at_index, absMap, if_pos hlt]
  intro j hj hview
  by_contra hge
  have hmap := hR.map j
  rw [absMap, if_pos hj, if_neg (by omega)] at hmap
  exact hview hmap

lemma Represents.tagged_iff (hR : Represents s m) (tag : Fin maxTags) :
    radixTreeTagged s.root tag = true ↔ ∃ index v tg, m index = some (v, tg) ∧ tg tag = true := by
  have hroot := hR.shows.slotTags hR.inv.cell tag
  unfold radixTreeTagged
  rw [hroot]
  constructor
  · rintro ⟨index, v, tg, -, -, hm, htg⟩
    exact ⟨index, v, tg, hm, htg⟩
  rintro ⟨index, v, tg, hm, htg⟩
  refine ⟨index, v, tg, Nat.zero_le _, ?_, hm, htg⟩
  by_contra hge
  have habs := hR.at_index index
  rw [absMap, if_neg (by omega), hm] at habs
  cases habs

-- == the result

/-- The radix tree refines its tagged map over every run. The calls return
what the map says; afterwards every lookup reads the map, an insertion at a
held index changes nothing, and every tag bit is exact. -/
theorem radix_refines_tagged_map (k : Config) (α : Type) (mask : BitVec 32)
    (hmask : mask.toNat < 2 ^ gfpBitsShift) (ops : List (Op k α))
    (hok : (radixContract k α).Allowed TagMap.empty ops) :
    ∃ outs s, run radixStep ⟨initRadixTree mask, []⟩ ops = some (outs, s) ∧
      (radixContract k α).Outputs TagMap.empty ops outs ∧
      (∀ index, radixTreeLookup s.root index = some
        (((radixContract k α).final TagMap.empty ops index).map Prod.fst)) ∧
      (∀ index item avail, 2 * maxPath k ≤ avail →
        (radixContract k α).final TagMap.empty ops index ≠ none →
        radixTreeInsert s.root index item ⟨s.slab, avail⟩
          = some (-EEXIST, s.root, ⟨s.slab, avail⟩)) ∧
      TagsExact ((radixContract k α).final TagMap.empty ops) s.root.height 0
        (rootTagGet s.root) s.root.rnode.ptr ∧
      ∀ tag, radixTreeTagged s.root tag = true ↔ ∃ index v tg,
        (radixContract k α).final TagMap.empty ops index = some (v, tg) ∧ tg tag = true := by
  obtain ⟨outs, s, hrun, houts, hR⟩ :=
    run_refines radixStep_refines ops _ TagMap.empty (represents_init hmask) hok
  refine ⟨outs, s, hrun, houts, ?_, ?_, ?_, hR.tagged_iff⟩
  · intro index
    rw [radixTreeLookup_spec hR.inv, hR.at_index]
  · intro index item avail havail hheld
    refine (radixTreeInsert_spec hR.inv ⟨hR.slab, ?_⟩ index item).2 ?_
    · exact le_trans havail (Nat.le_add_left _ _)
    · rw [hR.at_index]
      exact hheld
  · exact tagsExact_of_shows _ _ _ _ hR.inv.cell hR.shows

/-- A tagged item at the last index of a 64-bit word. -/
theorem radix_refines_tagged_map_last :
    let k : Config := ⟨.w64, 6, by decide, by decide⟩
    let ops : List (Op k Nat) := [.insert 22 (allOnes _) 7, .tagSet (allOnes _) 1]
    ∃ outs s, run radixStep ⟨initRadixTree 0, []⟩ ops = some (outs, s) ∧
      radixTreeTagged s.root 1 = true := by
  intro k ops
  have hok : (radixContract k Nat).Allowed TagMap.empty ops := by
    refine ⟨?_, ?_, trivial⟩
    · show 2 * maxPath k ≤ 22
      decide
    · simp [radixContract, callPre, callNext, TagMap.empty]
  obtain ⟨outs, s, hrun, -, -, -, -, htag⟩ := radix_refines_tagged_map k Nat 0 (by decide) ops hok
  refine ⟨outs, s, hrun, (htag 1).mpr ⟨allOnes _, 7, update noTags 1 true, ?_, rfl⟩⟩
  simp [ops, Contract.final, radixContract, callNext, TagMap.empty]

end BoardStack.Radix
