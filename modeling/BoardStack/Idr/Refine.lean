/-
The allocator as a finite map, over whole runs.

A client of lib/idr.c sees a partial map from ids to pointers. `idrContract`
states that map and what each call does to it, in its own terms: a new id is
the least one that is free, a replaced pointer changes one id, a removed id
is gone. `idrStep` is one call of the code, with the `idr_pre_get` that
precedes `idr_get_new`. Each call refines the contract (`idrStep_refines`),
and so does every run.

A pointer is an `Option α`: NULL may be stored like any other pointer. The
map tells an id that holds NULL from a free one; `idr_find` does not.
-/
import BoardStack.Base.Run
import BoardStack.Idr.Proofs.Remove
import Mathlib.Order.Lattice.Nat

namespace BoardStack.Idr

open Base Function

-- == the abstract map

/-- The map a client has in mind: the pointer each allocated id holds. -/
abbrev IdMap (α : Type) := Nat → Option (Option α)

variable {a : WordSize} {α : Type}

def IdMap.empty : IdMap α := fun _ => none

def IdMap.live (m : IdMap α) : Set Nat := {i | m i ≠ none}

/-- The least id not in use. -/
noncomputable def IdMap.firstFree (m : IdMap α) : Nat := sInf {i | m i = none}

lemma IdMap.firstFree_spec {m : IdMap α} {n : Nat} (h : m.live.encard < n) :
    m.firstFree < n ∧ m m.firstFree = none ∧ ∀ j, j < m.firstFree → m j ≠ none := by
  have hex : ∃ i, i < n ∧ m i = none := by
    by_contra hall
    push Not at hall
    have hsub : (Finset.range n : Set Nat) ⊆ m.live := by
      intro i hi
      exact hall i (by simpa using hi)
    have hcard := Set.encard_le_encard hsub
    rw [Set.encard_coe_eq_coe_finsetCard, Finset.card_range] at hcard
    exact absurd h (not_lt.mpr hcard)
  obtain ⟨i, hin, hi⟩ := hex
  have hmem : m.firstFree ∈ {i | m i = none} := Nat.sInf_mem ⟨i, hi⟩
  refine ⟨lt_of_le_of_lt (Nat.sInf_le hi) hin, hmem, ?_⟩
  exact fun j hj hnone => Nat.notMem_of_lt_sInf hj hnone

-- == calls

/-- A call a client makes. `getNew` stands for `idr_pre_get`, for which the
slab has `avail` layers, followed by `idr_get_new`. -/
inductive Op (α : Type) where
  | getNew (avail : Nat) (ptr : Option α)
  | replace (ptr : Option α) (id : BitVec 32)
  | remove (id : BitVec 32)
  | find (id : BitVec 32)

/-- What a call returns: for `getNew` both return codes and the stored id. -/
inductive Out (α : Type) where
  | gotNew (preGet rv : Int) (id : Option Int)
  | replaced (old : Except Int (Option α))
  | removed
  | found (ptr : Option α)

def idrStep (idp : IdrHandle a α) : Op α → Option (Out α × IdrHandle a α)
  | .getNew avail ptr =>
    let (pre, idp) := idrPreGet avail idp
    match idrGetNew idp ptr with
    | none => none
    | some (rv, id, idp) => some (.gotNew pre rv id, idp)
  | .replace ptr id =>
    match idrReplace idp ptr id with
    | none => none
    | some (old, idp) => some (.replaced old, idp)
  | .remove id =>
    match idrRemove idp id with
    | none => none
    | some idp => some (.removed, idp)
  | .find id =>
    match idrFind idp id with
    | none => none
    | some ptr => some (.found ptr, idp)

/-- What clients promise of a call: the slab has the layers `idr_pre_get`
asks for and fewer than `2 ^ 30` ids are in use; ids are non-negative, and
only ids in use are removed. -/
def callPre (a : WordSize) (m : IdMap α) : Op α → Prop
  | .getNew avail _ => idrFreeMax a ≤ avail ∧ m.live.encard < (2 ^ 30 : Nat)
  | .replace _ id => id.toNat < 2 ^ 31
  | .remove id => id.toNat < 2 ^ 31 ∧ m id.toNat ≠ none
  | .find id => id.toNat < 2 ^ 31

def callOut (m : IdMap α) : Op α → Out α → Prop
  | .getNew _ _, o => o = .gotNew 1 0 (some m.firstFree)
  | .replace _ id, o =>
    (∀ old, m id.toNat = some old → o = .replaced (.ok old)) ∧
      (m id.toNat = none → ∃ e, e < 0 ∧ o = .replaced (.error e))
  | .remove _, o => o = .removed
  | .find id, o => o = .found (m id.toNat).join

open Classical in
/-- What a call does to the map. -/
noncomputable def callNext (m : IdMap α) : Op α → IdMap α
  | .getNew _ ptr => update m m.firstFree (some ptr)
  | .replace ptr id =>
    if m id.toNat = none then m
    else update m id.toNat (some ptr)
  | .remove id => update m id.toNat none
  | .find _ => m

/-- The allocator's contract. -/
noncomputable def idrContract (a : WordSize) (α : Type) : Contract (IdMap α) (Op α) (Out α) where
  pre := callPre a
  out := callOut
  next := callNext

-- == the refinement

lemma idrPreGet_spec : ∀ (avail : Nat) (idp : IdrHandle a α),
    FreeList idp 0 → idrFreeMax a ≤ avail + idp.idFreeCnt →
      ∃ idp', idrPreGet avail idp = (1, idp') ∧ FreeList idp' (idrFreeMax a) ∧ idp'.top = idp.top ∧
        idp'.layers = idp.layers := by
  intro avail
  induction avail with
  | zero =>
    intro idp hfree havail
    have hcount := hfree.count
    refine ⟨idp, ?_, ⟨hfree.clean, hcount, by omega⟩, rfl, rfl⟩
    rw [idrPreGet, if_neg (by omega)]
  | succ avail ih =>
    intro idp hfree havail
    have hcount := hfree.count
    by_cases hlt : idp.idFreeCnt < idrFreeMax a
    · have hfree' : FreeList (moveToFreeList idp zeroLayer) 0 := by
        refine ⟨?_, ?_, Nat.zero_le _⟩
        · exact List.forall_mem_cons.mpr ⟨⟨rfl, fun _ => rfl, rfl⟩, hfree.clean⟩
        · show idp.idFreeCnt + 1 = idp.idFree.length + 1
          omega
      obtain ⟨idp', hrun, hfull, htop, hlay⟩ := ih _ hfree' (by
        show idrFreeMax a ≤ avail + (idp.idFreeCnt + 1)
        omega)
      refine ⟨idp', ?_, hfull, htop, hlay⟩
      rw [idrPreGet, if_pos hlt]
      exact hrun
    · refine ⟨idp, ?_, ⟨hfree.clean, hcount, by omega⟩, rfl, rfl⟩
      rw [idrPreGet, if_neg hlt]

def Represents (idp : IdrHandle a α) (m : IdMap α) : Prop := HandleInv idp ∧ ∀ i, absMap idp i = m i

lemma represents_init : Represents (idrInit : IdrHandle a α) IdMap.empty := by
  refine ⟨⟨.inl ⟨rfl, rfl⟩, ⟨?_, rfl, Nat.zero_le _⟩⟩, fun i => ?_⟩
  · intro p hp
    cases hp
  · exact absMap_of_null rfl i

lemma Represents.update {idp idp' : IdrHandle a α} {m : IdMap α} {k : Nat}
    {v : Option (Option α)} (h : Represents idp m) (hinv : HandleInv idp')
    (hmap : ∀ i, absMap idp' i = if i = k then v else absMap idp i) :
    Represents idp' (update m k v) := by
  refine ⟨hinv, fun i => ?_⟩
  rw [hmap, h.2, update_apply]

lemma idrStep_refines (idp : IdrHandle a α) (m : IdMap α) (op : Op α)
    (hR : Represents idp m) (hpre : (idrContract a α).pre m op) :
    ∃ o idp', idrStep idp op = some (o, idp') ∧ (idrContract a α).out m op o ∧
      Represents idp' ((idrContract a α).next m op) := by
  cases op with
  | getNew avail ptr =>
    obtain ⟨havail, hlive⟩ := hpre
    obtain ⟨idp1, hpg, hfree, htop, hlay⟩ := idrPreGet_spec avail idp hR.1.free (by omega)
    have hR1 : Represents idp1 m := by
      refine ⟨⟨(treeInv_congr htop hlay).mpr hR.1.tree, hfree.mono (Nat.zero_le _)⟩, fun i => ?_⟩
      rw [absMap_congr htop hlay, hR.2]
    obtain ⟨hlt, hnone, hleast⟩ := IdMap.firstFree_spec hlive
    obtain ⟨idp', hget, hinv, hmap⟩ := idrGetNew_spec hR1.1 hfree hlt (by rw [hR1.2, hnone])
      (fun j hj => by rw [hR1.2]; exact hleast j hj) ptr
    refine ⟨.gotNew 1 0 (some m.firstFree), idp', ?_, rfl, hR1.update hinv hmap⟩
    simp only [idrStep, hpg, hget]
  | replace ptr id =>
    obtain ⟨hheld, habsent⟩ := idrReplace_spec hR.1 ptr id hpre
    rw [hR.2] at hheld habsent
    cases hm : m id.toNat with
    | none =>
      obtain ⟨e, he, hrep⟩ := habsent hm
      refine ⟨.replaced (.error e), idp, by simp only [idrStep, hrep],
        ⟨fun old hold => ?_, fun _ => ⟨e, he, rfl⟩⟩, ?_⟩
      · simp [hm] at hold
      · show Represents idp (callNext m (.replace ptr id))
        rw [callNext, if_pos hm]
        exact hR
    | some old =>
      obtain ⟨idp', hrep, hinv, hmap⟩ := hheld old hm
      refine ⟨.replaced (.ok old), idp', by simp only [idrStep, hrep],
        ⟨fun old' hold => ?_, fun hnone => ?_⟩, ?_⟩
      · rw [hm] at hold
        cases hold
        rfl
      · simp [hm] at hnone
      · show Represents idp' (callNext m (.replace ptr id))
        rw [callNext, if_neg (by simp [hm])]
        exact hR.update hinv hmap
  | remove id =>
    obtain ⟨hid, halloc⟩ := hpre
    rw [← hR.2] at halloc
    obtain ⟨idp', hrem, hinv, hmap⟩ := idrRemove_spec hR.1 hid halloc
    exact ⟨.removed, idp', by simp only [idrStep, hrem], rfl, hR.update hinv hmap⟩
  | find id =>
    have hfind := idrFind_spec hR.1.tree id hpre
    rw [hR.2] at hfind
    exact ⟨.found (m id.toNat).join, idp, by simp only [idrStep, hfind], rfl, hR⟩

/-- The allocator refines its map over every run a client may make: the leaves
hold the map the run leads to, and `idr_find` reads it. The invariant of the tree
holds throughout: bits say which subtrees are full, inner layers count their used
entries, leaves the ids in use, layer numbers are distances to the leaf. -/
theorem idr_refines_map (a : WordSize) (α : Type) (ops : List (Op α))
    (hok : (idrContract a α).Allowed IdMap.empty ops) :
    ∃ outs idp, run idrStep (idrInit : IdrHandle a α) ops = some (outs, idp) ∧
      (idrContract a α).Outputs IdMap.empty ops outs ∧
      TreeInv idp ∧ absMap idp = (idrContract a α).final IdMap.empty ops ∧
      ∀ id : BitVec 32, id.toNat < 2 ^ 31 → idrFind idp id
          = some ((idrContract a α).final IdMap.empty ops id.toNat).join := by
  obtain ⟨outs, idp, hrun, houts, hR⟩ :=
    run_refines idrStep_refines ops idrInit IdMap.empty represents_init hok
  refine ⟨outs, idp, hrun, houts, hR.1.tree, funext hR.2, fun id hid => ?_⟩
  rw [idrFind_spec hR.1.tree id hid, hR.2]

-- == a run

/-- A new id is one more in use. -/
lemma encard_getNew (m : IdMap α) (avail : Nat) (ptr : Option α) :
    (callNext m (.getNew avail ptr)).live.encard ≤ m.live.encard + 1 := by
  have hsub : (callNext m (.getNew avail ptr)).live ⊆ insert m.firstFree m.live := by
    intro i hi
    by_cases heq : i = m.firstFree
    · exact .inl heq
    · refine .inr fun hnone => hi ?_
      rw [callNext, update_of_ne heq, hnone]
  exact (Set.encard_le_encard hsub).trans (Set.encard_insert_le ..)

/-- After one id at least, id 0 is in use. -/
lemma getNew_zero (m : IdMap α) (avail : Nat) (ptr : Option α) :
    callNext m (.getNew avail ptr) 0 ≠ none := by
  rw [callNext]
  by_cases hzero : m 0 = none
  · have hfirst : m.firstFree = 0 := Nat.le_zero.mp (Nat.sInf_le hzero)
    rw [hfirst, update_self]
    exact Option.some_ne_none _
  · by_cases hfirst : 0 = m.firstFree
    · rw [← hfirst, update_self]
      exact Option.some_ne_none _
    · rwa [update_of_ne hfirst]

/-- Any number of new ids may be asked for, as long as they are few enough. -/
lemma getNews_allowed (ptr : Option α) (rest : List (Op α)) (n : Nat) :
    ∀ (m : IdMap α) (k : Nat), m.live.encard ≤ k → k + n < 2 ^ 30 → (0 < n ∨ m 0 ≠ none) →
      (∀ m' : IdMap α, m' 0 ≠ none → (idrContract a α).Allowed m' rest) →
      (idrContract a α).Allowed m (List.replicate n (.getNew (idrFreeMax a) ptr) ++ rest) := by
  induction n with
  | zero => exact fun m k _ _ hzero hrest => hrest m (hzero.resolve_left (Nat.lt_irrefl 0))
  | succ n ih =>
    intro m k hcard hlt _ hrest
    refine ⟨⟨le_rfl, hcard.trans_lt (by exact_mod_cast (by omega : k < 2 ^ 30))⟩, ?_⟩
    refine ih _ (k + 1) ?_ (by omega) (.inr (getNew_zero m (idrFreeMax a) ptr)) hrest
    exact (encard_getNew m (idrFreeMax a) ptr).trans (by exact_mod_cast add_le_add_left hcard 1)

lemma live_empty : (IdMap.empty : IdMap α).live.encard ≤ (0 : Nat) := by
  have hlive : (IdMap.empty : IdMap α).live = ∅ := by simp [IdMap.live, IdMap.empty]
  rw [hlive, Set.encard_empty]
  exact le_rfl

lemma getNew_allowed (a : WordSize) (ptr : Option α) :
    (idrContract a α).Allowed IdMap.empty [.getNew (idrFreeMax a) ptr] :=
  getNews_allowed ptr [] 1 IdMap.empty 0 live_empty (by decide) (.inl Nat.one_pos)
    fun _ _ => trivial

/-- Thirty-three ids, so that a second layer is put on top of the first; then one of
them gets another pointer, and one is removed. -/
def growing : List (Op Nat) :=
  List.replicate 33 (.getNew (idrFreeMax .w32) (some 7)) ++ [.replace (some 8) 32, .remove 0]

theorem growing_refines :
    ∃ outs idp, run idrStep (idrInit : IdrHandle .w32 Nat) growing = some (outs, idp) ∧
      TreeInv idp ∧ absMap idp = (idrContract .w32 Nat).final IdMap.empty growing := by
  have hok : (idrContract .w32 Nat).Allowed IdMap.empty growing := by
    refine getNews_allowed (some 7) _ 33 IdMap.empty 0 live_empty (by decide) (.inl (by decide))
      fun m hzero => ⟨(by decide : (32 : BitVec 32).toNat < 2 ^ 31), ⟨by decide, ?_⟩, trivial⟩
    show callNext m (.replace (some 8) 32) 0 ≠ none
    rw [callNext]
    split_ifs
    · exact hzero
    · rwa [update_of_ne (by decide)]
  obtain ⟨outs, idp, hrun, -, htree, hmap, -⟩ := idr_refines_map .w32 Nat growing hok
  exact ⟨outs, idp, hrun, htree, hmap⟩

-- == ids that are not in use

/-- What a call needs of the tree: as before, but an id that is not in use may be removed
if its place in the tree is not in use either. -/
def placePre (a : WordSize) (idp : IdrHandle a α) : Op α → Prop
  | .remove id => id.toNat < 2 ^ 31 ∧ (absMap idp id.toNat ≠ none ∨
      absMap idp (id.toNat % capacity a (idp.layers - 1)) = none)
  | op => callPre a (absMap idp) op

/-- An id whose place is not in use is not in use. -/
lemma absMap_of_place {idp : IdrHandle a α} (h : TreeInv idp) {i : Nat}
    (hplace : absMap idp (i % capacity a (idp.layers - 1)) = none) : absMap idp i = none := by
  rcases h with ⟨htop, -⟩ | ⟨l, hlay, -, -⟩
  · exact absMap_of_null htop i
  · rw [absMap_of_layers idp hlay] at hplace ⊢
    rw [hlay, Nat.add_sub_cancel] at hplace
    by_cases hlt : i < capacity a l
    · rwa [Nat.mod_eq_of_lt hlt] at hplace
    · exact if_neg hlt

lemma idrStep_keeps {idp : IdrHandle a α} {m : IdMap α} {op : Op α} (hR : Represents idp m)
    (hpre : placePre a idp op) : ∃ o idp', idrStep idp op = some (o, idp') ∧
      Represents idp' (callNext m op) := by
  have hmap : absMap idp = m := funext hR.2
  by_cases hcall : callPre a m op
  · obtain ⟨o, idp', hstep, -, hR'⟩ := idrStep_refines idp m op hR hcall
    exact ⟨o, idp', hstep, hR'⟩
  · cases op with
    | remove id =>
      obtain ⟨hid, hpre⟩ := hpre
      have hplace := hpre.resolve_left fun halloc => hcall ⟨hid, hmap ▸ halloc⟩
      obtain ⟨idp', hrem, hinv, hsame⟩ := idrRemove_absent hR.1 hid hplace
      refine ⟨.removed, idp', by simp only [idrStep, hrem], hinv, fun i => ?_⟩
      have habsent := absMap_of_place hR.1.tree hplace
      rw [hmap] at habsent
      rw [hsame, hmap, callNext, ← habsent, update_eq_self]
    | getNew avail ptr => exact absurd (hmap ▸ hpre) hcall
    | replace ptr id => exact absurd hpre hcall
    | find id => exact absurd hpre hcall

/-- One step of such a run: the tree holds the map of the calls so far. -/
lemma placeStep_invariant (a : WordSize) (past : List (Op α)) (idp : IdrHandle a α) (op : Op α)
    (hR : Represents idp ((idrContract a α).final IdMap.empty past.reverse))
    (hpre : placePre a idp op) : ∃ o idp', idrStep idp op = some (o, idp') ∧ True ∧
      Represents idp' ((idrContract a α).final IdMap.empty (op :: past).reverse) := by
  obtain ⟨o, idp', hstep, hR'⟩ := idrStep_keeps hR hpre
  refine ⟨o, idp', hstep, trivial, ?_⟩
  rw [List.reverse_cons, Contract.final, List.foldl_append]
  exact hR'

/-- After every run of calls that find what they need in the tree, `idr_remove` of an id
changes nothing that `idr_find` and `idr_get_new` see if the id's place in the tree is
not in use: digits above the tree are not looked at. -/
theorem idr_remove_absent (a : WordSize) (α : Type) (ops : List (Op α))
    (hok : Permitted idrStep (fun _ => placePre a) [] (idrInit : IdrHandle a α) ops) :
    ∃ outs idp, run idrStep (idrInit : IdrHandle a α) ops = some (outs, idp) ∧
      absMap idp = (idrContract a α).final IdMap.empty ops ∧
      ∀ id : BitVec 32, id.toNat < 2 ^ 31 →
        absMap idp (id.toNat % capacity a (idp.layers - 1)) = none →
        ∃ idp', idrRemove idp id = some idp' ∧ absMap idp' = absMap idp ∧
          (∀ j : BitVec 32, j.toNat < 2 ^ 31 → idrFind idp' j = idrFind idp j) ∧
          ∀ avail ptr, callPre a (absMap idp) (.getNew avail ptr) →
            ∃ idp'', idrStep idp' (.getNew avail ptr)
              = some (.gotNew 1 0 (some (IdMap.firstFree (absMap idp))), idp'') := by
  obtain ⟨outs, idp, hrun, -, hR⟩ := run_invariant (placeStep_invariant a) ops [] idrInit
    represents_init hok
  rw [List.append_nil, List.reverse_reverse] at hR
  refine ⟨outs, idp, hrun, funext hR.2, fun id hid habsent => ?_⟩
  obtain ⟨idp', hrem, hinv, hmap⟩ := idrRemove_absent hR.1 hid habsent
  refine ⟨idp', hrem, hmap, fun j hj => ?_, fun avail ptr hpre => ?_⟩
  · rw [idrFind_spec hinv.tree j hj, idrFind_spec hR.1.tree j hj, hmap]
  · obtain ⟨o, idp'', hstep, rfl, -⟩ := idrStep_refines idp' (absMap idp)
      (.getNew avail ptr) ⟨hinv, fun i => by rw [hmap]⟩ hpre
    exact ⟨idp'', hstep⟩

/-- A new id, and the removal of one that is not in use. -/
def removesAbsent : List (Op Nat) := [.getNew (idrFreeMax .w32) (some 7), .remove 5]

theorem idr_remove_absent_single :
    ∃ outs idp, run idrStep (idrInit : IdrHandle .w32 Nat) removesAbsent = some (outs, idp) ∧
      ∀ id : BitVec 32, id.toNat < 2 ^ 31 →
        absMap idp (id.toNat % capacity .w32 (idp.layers - 1)) = none →
        ∃ idp', idrRemove idp id = some idp' ∧ ∀ j : BitVec 32, j.toNat < 2 ^ 31 →
            idrFind idp' j = idrFind idp j := by
  have hok : Permitted idrStep (fun _ => placePre .w32) []
      (idrInit : IdrHandle .w32 Nat) removesAbsent := by
    refine ⟨⟨le_rfl, ?_⟩, fun o idp hstep => ⟨?_, fun _ _ _ => trivial⟩⟩
    · have hnone : absMap (idrInit : IdrHandle .w32 Nat) = IdMap.empty := funext represents_init.2
      rw [hnone]
      exact live_empty.trans_lt (by exact_mod_cast Nat.two_pow_pos 30)
    · cases hstep
      exact ⟨by decide, .inr rfl⟩
  obtain ⟨outs, idp, hrun, -, hrem⟩ := idr_remove_absent .w32 Nat removesAbsent hok
  refine ⟨outs, idp, hrun, fun id hid habsent => ?_⟩
  obtain ⟨idp', hidp', -, hfind, -⟩ := hrem id hid habsent
  exact ⟨idp', hidp', hfind⟩

/-- Only id 0 is in use, and removing 32 removes it. -/
theorem remove_of_32_removes_0 :
    ∃ outs idp idp', run idrStep (idrInit : IdrHandle .w32 Nat)
        [.getNew (idrFreeMax .w32) (some 7)] = some (outs, idp) ∧
      idrFind idp 0 = some (some 7) ∧ idrFind idp 32 = some none ∧
      idrRemove idp 32 = some idp' ∧ idrFind idp' 0 = some none :=
  ⟨_, _, _, rfl, rfl, rfl, rfl, rfl⟩

/-- The reading of `count` as the number of non-NULL entries, in a layer at
distance `l` and every layer below it. -/
def CountsNonNull : Nat → Slot a α → Prop
  | 0, .layer _ ary c _ =>
    c = countBelow (idrSize a) fun i => (ary i).isSet
  | l + 1, .layer _ ary c _ =>
    (c = countBelow (idrSize a) fun i => (ary i).isSet) ∧
      ∀ i, i < idrSize a → CountsNonNull l (ary i)
  | _, _ => True

/-- A leaf counts the ids in use, not the non-NULL pointers: after NULL was
stored under the first id, the leaf's `count` is one and every entry NULL. -/
theorem count_not_nonNull :
    ∃ idp, (idrContract .w32 Unit).Allowed IdMap.empty [.getNew (idrFreeMax .w32) none] ∧
      run idrStep (idrInit : IdrHandle .w32 Unit) [.getNew (idrFreeMax .w32) none]
          = some ([.gotNew 1 0 (some 0)], idp) ∧
      idp.layers = 1 ∧ ¬ CountsNonNull 0 idp.top :=
  ⟨_, getNew_allowed .w32 none, rfl, rfl, by
    intro h
    have hcount : (1 : Int) = (0 : Nat) := h
    exact absurd hcount (by decide)⟩

end BoardStack.Idr
