/-
The two searches in the fragment tree.

The fragments lie side by side, so the tree is ordered by offset.
`jffs2_lookup_node_frag` goes down from the root and ends at the fragment
that contains the offset, or else at the last one before it.
`jffs2_fragtree_insert` goes down from a given fragment and ends at the empty
link right after it, when the new offset lies between it and the next.
-/
import BoardStack.Base.Segments
import BoardStack.Jffs2.Basic
import BoardStack.Rbtree.Correct

namespace BoardStack.Jffs2

open Base Rbtree List Option PtrTree Ctx

variable {a : WordSize}
variable {s : Inode a} {fuel stop : Nat} {g : Nat → Option Nat} {p : Word a}

-- == arithmetic

lemma add32_eq {x y : Nat} (h : x + y < 2 ^ 32) : add32 x y = x + y := if_pos h

lemma sub32_eq {x y : Nat} (hle : y ≤ x) : sub32 x y = x - y := if_pos hle

-- == fragments

/-- The data of a fragment; an empty hole where there is none. -/
def Inode.frag (s : Inode a) (p : Word a) : NodeFrag := (s.frags p).getD ⟨none, 0, 0⟩

def segment (s : Inode a) : Segment (Word a) (Option Nat) where
  ofs p := (s.frag p).ofs
  size p := (s.frag p).size
  val p := (s.frag p).node

@[simp] lemma segment_ofs (s : Inode a) (p : Word a) : (segment s).ofs p = (s.frag p).ofs := rfl

@[simp] lemma segment_size (s : Inode a) (p : Word a) : (segment s).size p = (s.frag p).size := rfl

@[simp] lemma segment_val (s : Inode a) (p : Word a) : (segment s).val p = (s.frag p).node := rfl

@[simp] lemma segment_stop (s : Inode a) (p : Word a) :
    (segment s).stop p = (s.frag p).ofs + (s.frag p).size := rfl

lemma frags_eq (h : 0 < (segment s).size p) : s.frags p = some (s.frag p) := by
  rw [segment_size] at h
  unfold Inode.frag at h ⊢
  cases hf : s.frags p with
  | none =>
    rw [hf] at h
    simp at h
  | some f => rfl

/-- The fragments in order fill the file from 0 to `stop`, and refer to the
nodes `g` has for each byte. -/
structure FragList (s : Inode a) (g : Nat → Option Nat)
    (l : List (Word a)) (stop : Nat) : Prop where
  tree : IsTree s.fragtree l
  shows : (segment s).Shows g 0 l stop
  bound : stop < 2 ^ 32

section

variable {s : Inode a} {g : Nat → Option Nat} {l : List (Word a)} {stop : Nat} {p : Word a}

lemma FragList.frags_eq (h : FragList s g l stop) (hp : p ∈ l) : s.frags p = some (s.frag p) :=
  Jffs2.frags_eq (h.shows.mem_range hp).2.1

lemma FragList.end_eq (h : FragList s g l stop) (hp : p ∈ l) :
    add32 (s.frag p).ofs (s.frag p).size = (segment s).stop p := by
  have hrange := (h.shows.mem_range hp).2.2
  have hbound := h.bound
  rw [segment_stop] at hrange ⊢
  exact add32_eq (by omega)

lemma FragList.length_lt (h : FragList s g l stop) : l.length < 2 ^ 32 := by
  have hlen := h.shows.length_le
  have hbound := h.bound
  omega

end

-- == lookup

/-- What a search for an offset may end with: the fragment that contains it,
or the last of those before it. -/
def Found (s : Inode a) (l : List (Word a)) (offset : Nat) (r : Word a) :
    Prop :=
  (r ∈ l ∧ (segment s).ofs r ≤ offset ∧ offset < (segment s).stop r) ∨
  ∃ l1 l2, l = l1 ++ l2 ∧ (∀ x ∈ l1, (segment s).stop x ≤ offset) ∧
    (∀ x ∈ l2, offset < (segment s).ofs x) ∧ r = addr l1.getLast?

variable {l1 l2 : List (Word a)}

lemma closest_eq (h : FragList s g (l1 ++ p :: l2) stop) (before : List (Word a))
    (hbefore : ∀ x ∈ before, x ∈ l1) :
    closest s (s.frag p) p (addr before.getLast?) = some p := by
  unfold closest
  cases hlast : before.getLast? with
  | none => exact if_pos rfl
  | some q =>
    have hq : q ∈ l1 := hbefore q (List.mem_of_getLast? hlast)
    have hql : q ∈ l1 ++ p :: l2 := mem_append_left _ hq
    have hlt : (s.frag q).ofs < (s.frag p).ofs := by
      have hsides := h.shows.sides.1 q hq
      have hsize := (h.shows.mem_range hql).2.1
      simp only [segment_stop, segment_ofs, segment_size] at hsides hsize
      omega
    rw [addr_some, if_neg (h.tree.isAddr hql).1, h.frags_eq hql, map_some, if_pos hlt]

lemma lookupLoop_spec (offset fuel : Nat) : ∀ {ctx : RbCtx a} {t : RbTree a},
    Repr s.fragtree (ctx.plug t) →
    FragList s g (ctx.plug t).toList stop →
    (∀ x ∈ ctx.before, (segment s).stop x ≤ offset) →
    (∀ x ∈ ctx.after, offset < (segment s).ofs x) → t.size < fuel →
    ∃ r, lookupLoop s offset fuel (addr t.root?) (addr ctx.before.getLast?) = some r ∧
      Found s (ctx.plug t).toList offset r := by
  induction fuel with
  | zero => intro ctx t _ _ _ _ hfuel; omega
  | succ fuel ih =>
    intro ctx t ht h hbefore hafter hfuel
    unfold lookupLoop
    cases hroot : t.root? with
    | none =>
      obtain rfl := eq_leaf_of_root? hroot
      refine ⟨_, if_pos rfl, .inr ⟨ctx.before, ctx.after, ?_, hbefore, hafter, rfl⟩⟩
      rw [toList_plug, toList_leaf, nil_append]
    | some p =>
      obtain ⟨c, x, y, rfl⟩ := eq_branch .left hroot
      rw [size_branch] at hfuel
      have hp : p ∈ (ctx.plug (.branch .left p c x y)).toList :=
        mem_plug.mpr (.inl (mem_of_root? hroot))
      have hlist := toList_plug_branch ctx p c x y
      have h' := h
      rw [hlist] at h'
      obtain ⟨hbelow, habove⟩ := h'.shows.sides
      rw [addr_some, if_neg (h.tree.isAddr hp).1, h.frags_eq hp, ht.heap_eq]
      simp only [bind_eq_bind, bind_some, h.end_eq hp]
      by_cases hend : (segment s).stop p ≤ offset
      · -- everything up to `p` is before the offset
        have hright : Repr s.fragtree (plug (⟨.right, p, c, x⟩ :: ctx) y) := ht
        have hbefore' : ∀ z ∈ Ctx.before (⟨.right, p, c, x⟩ :: ctx),
            (segment s).stop z ≤ offset := by
          intro z hz
          have hz : z ∈ ctx.before ++ (x.toList ++ [p]) := hz
          rw [← append_assoc, List.mem_append, mem_singleton] at hz
          rcases hz with hz | rfl
          · have hz := hbelow z hz
            rw [segment_ofs] at hz
            rw [segment_stop] at hend
            omega
          · exact hend
        obtain ⟨r, hr, hfound⟩ := ih hright h hbefore' hafter (by omega)
        refine ⟨r, ?_, hfound⟩
        rw [if_pos hend, closest_eq h' ctx.before
          (fun z hz => mem_append_left _ hz), bind_some, ← hr]
        congr 1
        show p = addr (ctx.before ++ (x.toList ++ [p])).getLast?
        rw [← append_assoc, List.getLast?_concat, addr_some]
      · rw [if_neg hend]
        by_cases hofs : (s.frag p).ofs > offset
        · have hleft : Repr s.fragtree (plug (⟨.left, p, c, y⟩ :: ctx) x) := ht
          have hafter' : ∀ z ∈ Ctx.after (⟨.left, p, c, y⟩ :: ctx), offset < (segment s).ofs z := by
            intro z hz
            have hz : z ∈ p :: (y.toList ++ ctx.after) := hz
            rcases List.mem_cons.mp hz with rfl | hz
            · exact hofs
            · have hz := habove z hz
              omega
          obtain ⟨r, hr, hfound⟩ := ih hleft h hbefore hafter' (by omega)
          refine ⟨r, ?_, hfound⟩
          rw [if_pos hofs, ← hr]
          rfl
        · rw [if_neg hofs]
          refine ⟨p, rfl, .inl ⟨hp, ?_, ?_⟩⟩
          · rw [segment_ofs]
            omega
          · omega

/-- `jffs2_lookup_node_frag`: the fragment that contains the offset, the last
one when the offset is beyond the end, NULL when there is none. -/
lemma jffs2LookupNodeFrag_spec {l : List (Word a)} (h : FragList s g l stop)
    (offset : Nat) (hfuel : l.length < fuel) :
    (∃ r l1 l2, jffs2LookupNodeFrag fuel s offset = some r ∧
      l = l1 ++ r :: l2 ∧ (segment s).ofs r ≤ offset ∧ offset < (segment s).stop r) ∨
    jffs2LookupNodeFrag fuel s offset = some (addr l.getLast?) ∧ stop ≤ offset := by
  obtain ⟨t, ht, -, rfl⟩ := h.tree
  have ht' : Repr s.fragtree (plug [] t) := ht
  rw [← size_eq_length] at hfuel
  obtain ⟨r, hr, hfound⟩ := lookupLoop_spec offset fuel ht' h
    (fun x hx => by cases hx) (fun x hx => by cases hx) hfuel
  have hrun : jffs2LookupNodeFrag fuel s offset = some r := by
    rw [jffs2LookupNodeFrag, ht.root]
    exact hr
  rcases hfound with ⟨hmem, hlo, hhi⟩ | ⟨l1, l2, hl, hlo, hhi, rfl⟩
  · obtain ⟨l1, l2, hl⟩ := append_of_mem hmem
    exact .inl ⟨r, l1, l2, hrun, hl, hlo, hhi⟩
  -- what is after the offset would leave a gap
  right
  have hl : t.toList = l1 ++ l2 := hl
  have hshows := h.shows
  rw [hl] at hshows ⊢
  obtain ⟨b, h1, h2⟩ := Segment.shows_append.mp hshows
  have hb : b ≤ offset := by
    rcases eq_nil_or_concat l1 with rfl | ⟨l3, x, rfl⟩
    · rw [Segment.shows_nil] at h1
      omega
    · rw [concat_eq_append] at h1 hlo
      have hstop := h1.stop_eq
      have hx := hlo x (by simp)
      omega
  cases l2 with
  | nil =>
    rw [Segment.shows_nil] at h2
    rw [append_nil]
    exact ⟨hrun, by omega⟩
  | cons y l2 =>
    have hofs := (Segment.shows_cons.mp h2).1
    have hy := hhi y mem_cons_self
    omega

-- == insertion

variable {l1 l2 x y : List (Word a)}

lemma split_left (h : x ++ p :: y = l1 ++ l2) (hp : p ∉ l2) :
    ∃ l3, l1 = x ++ p :: l3 ∧ y = l3 ++ l2 := by
  rcases append_eq_append_iff.mp h with ⟨z, rfl, hz⟩ | ⟨z, -, rfl⟩
  · cases z with
    | nil => exact absurd (by rw [← nil_append l2, ← hz]; simp) hp
    | cons q z =>
      obtain ⟨rfl, rfl⟩ := cons_eq_cons.mp hz
      exact ⟨z, rfl, rfl⟩
  · exact absurd (mem_append_right _ mem_cons_self) hp

lemma split_right (h : x ++ p :: y = l1 ++ l2) (hp : p ∉ l1) :
    ∃ l3, x = l1 ++ l3 ∧ l2 = l3 ++ p :: y := by
  rcases append_eq_append_iff.mp h with ⟨z, rfl, hz⟩ | ⟨z, rfl, rfl⟩
  · cases z with
    | nil => exact ⟨[], by simp, by simpa using hz.symm⟩
    | cons q z =>
      obtain ⟨rfl, -⟩ := cons_eq_cons.mp hz
      exact absurd (mem_append_right _ mem_cons_self) hp
  · exact ⟨z, rfl, rfl⟩

lemma fragtreeLink_spec (ofs fuel : Nat) :
    ∀ {ctx : RbCtx a} {t : RbTree a} {base : Word a} (l1 l2 : List (Word a)),
    Repr s.fragtree (ctx.plug t) →
    (∀ x ∈ t.toList, s.frags x = some (s.frag x)) → t.root? = some base →
    t.toList = l1 ++ l2 → (∀ x ∈ l1, (s.frag x).ofs < ofs) →
    (∀ x ∈ l2, ofs < (s.frag x).ofs) → t.size ≤ fuel →
    ∃ parent d, fragtreeLink s ofs fuel base = some (parent, d) ∧
      EmptyLink s.fragtree (ctx.plug t).toList parent d (ctx.before ++ l1) (l2 ++ ctx.after) := by
  induction fuel with
  | zero =>
    intro ctx t base l1 l2 _ _ hroot _ _ _ hfuel
    obtain ⟨c, x, y, rfl⟩ := eq_branch .left hroot
    rw [size_branch] at hfuel
    omega
  | succ fuel ih =>
    intro ctx t p l1 l2 ht hfrags hroot hl hlo hhi hfuel
    obtain ⟨c, x, y, rfl⟩ := eq_branch .left hroot
    rw [size_branch] at hfuel
    have hl : x.toList ++ p :: y.toList = l1 ++ l2 := hl
    have hp := hfrags p (mem_of_root? hroot)
    have hlist := toList_plug_branch ctx p c x y
    unfold fragtreeLink
    rw [hp, ht.heap_eq]
    simp only [bind_eq_bind, bind_some]
    have hmem : p ∈ l1 ++ l2 := by rw [← hl]; simp
    rcases List.mem_append.mp hmem with hp1 | hp2
    · -- to the right of `p`
      have hlt := hlo p hp1
      have hp2 : p ∉ l2 := fun hm => by
        have := hhi p hm
        omega
      obtain ⟨l3, rfl, hy⟩ := split_left hl hp2
      rw [if_pos hlt]
      cases hyroot : y.root? with
      | none =>
        obtain rfl := eq_leaf_of_root? hyroot
        obtain ⟨rfl, rfl⟩ := append_eq_nil_iff.mp hy.symm
        refine ⟨p, .right, if_pos rfl, ?_⟩
        have hlink := EmptyLink.right hlist ht.heap_eq rfl
        rwa [append_assoc] at hlink
      | some q =>
        have hright : Repr s.fragtree (plug (⟨.right, p, c, x⟩ :: ctx) y) := ht
        obtain ⟨parent, d, hrun, hlink⟩ := ih l3 l2 hright
          (fun z hz => hfrags z (mem_branch.mpr (.inr (.inr hz)))) hyroot hy
          (fun z hz => hlo z (by simp [hz])) hhi (by omega)
        refine ⟨parent, d, ?_, ?_⟩
        · show (if q = 0 then _ else fragtreeLink s ofs fuel q) = _
          rw [if_neg (hright.isAddr_root hyroot).1, hrun]
        have hb : Ctx.before (⟨.right, p, c, x⟩ :: ctx) ++ l3
            = ctx.before ++ (x.toList ++ p :: l3) := by
          simp [Ctx.before]
        rw [hb] at hlink
        exact hlink
    · have hlt := hhi p hp2
      have hp1 : p ∉ l1 := fun hm => by
        have := hlo p hm
        omega
      obtain ⟨l3, hx, rfl⟩ := split_right hl hp1
      rw [if_neg (by omega), if_pos hlt]
      cases hxroot : x.root? with
      | none =>
        obtain rfl := eq_leaf_of_root? hxroot
        obtain ⟨rfl, rfl⟩ := append_eq_nil_iff.mp hx.symm
        refine ⟨p, .left, if_pos rfl, ?_⟩
        have hlink := EmptyLink.left hlist ht.heap_eq rfl
        exact hlink
      | some q =>
        have hleft : Repr s.fragtree (plug (⟨.left, p, c, y⟩ :: ctx) x) := ht
        obtain ⟨parent, d, hrun, hlink⟩ := ih l1 l3 hleft
          (fun z hz => hfrags z (mem_branch.mpr (.inr (.inl hz)))) hxroot hx hlo
          (fun z hz => hhi z (by simp [hz])) (by omega)
        refine ⟨parent, d, ?_, ?_⟩
        · show (if q = 0 then _ else fragtreeLink s ofs fuel q) = _
          rw [if_neg (hleft.isAddr_root hxroot).1, hrun]
        have ha : l3 ++ Ctx.after (⟨.left, p, c, y⟩ :: ctx)
            = (l3 ++ p :: y.toList) ++ ctx.after := by
          simp [Ctx.after]
        rw [ha] at hlink
        exact hlink

/-- A tree that only differs in the memory of one new node and of the nodes
it has. -/
def TreeFrame (s : Inode a) (tree : Rb a) (l : List (Word a)) : Prop :=
  ∀ q, q ∉ l → tree.heap q = s.fragtree.heap q

lemma linkAndColor_spec {l before after : List (Word a)} {new parent : Word a} {d : Dir}
    {old : RbNode a} (h : IsTree s.fragtree l) (hfuel : l.length < fuel)
    (hlink : EmptyLink s.fragtree l parent d before after) (hnew : new ∉ l) (haddr : IsAddr new)
    (hold : s.fragtree.heap new = some old) :
    ∃ tree, linkAndColor fuel s new parent d = some { s with fragtree := tree } ∧
      IsTree tree (before ++ new :: after) ∧
      TreeFrame s tree (new :: l) := by
  obtain ⟨s1, tree, hs1, hs2, htree, hframe⟩ := h.insert hfuel hlink haddr hold hnew
  refine ⟨tree, ?_, htree, fun q hq => hframe q ?_ ?_⟩
  · simp only [linkAndColor, Inode.onTree, hs1, map_some, bind_eq_bind, bind_some, hs2]
  · exact fun e => hq (by simp [e])
  · exact fun hm => hq (by simp [hm])

lemma jffs2FragtreeInsert_spec {new base : Word a} {old : RbNode a} {g' : Nat → Option Nat}
    {b b' c' : Nat} (h : IsTree s.fragtree (l1 ++ base :: l2))
    (hfuel : (l1 ++ base :: l2).length < fuel) (hleft : (segment s).Shows g b (l1 ++ [base]) b')
    (hb : b' ≤ (s.frag new).ofs) (hright : (segment s).Shows g' c' l2 stop)
    (hc : (s.frag new).ofs < c') (hpos : 0 < (segment s).size new) (hnew : new ∉ l1 ++ base :: l2)
    (haddr : IsAddr new) (hold : s.fragtree.heap new = some old) :
    ∃ tree, jffs2FragtreeInsert fuel s new base = some { s with fragtree := tree } ∧
      IsTree tree (l1 ++ base :: new :: l2) ∧
      TreeFrame s tree (new :: (l1 ++ base :: l2)) := by
  have hfrags : ∀ x ∈ new :: (l1 ++ base :: l2), s.frags x = some (s.frag x) := by
    rw [append_cons, forall_mem_cons, forall_mem_append]
    exact ⟨frags_eq hpos, fun x hx => frags_eq (hleft.mem_range hx).2.1,
      fun x hx => frags_eq (hright.mem_range hx).2.1⟩
  have hlo : ∀ x ∈ l1 ++ [base], (s.frag x).ofs < (s.frag new).ofs := by
    intro x hx
    have hrange := hleft.mem_range hx
    rw [segment_size, segment_stop] at hrange
    omega
  obtain ⟨t, ht, hrb, hl⟩ := h
  obtain ⟨ctx, c, x, y, rfl⟩ := exists_of_mem .left (t := t) (p := base) (by rw [hl]; simp)
  obtain ⟨rfl, rfl⟩ := split_eq ht.nodup hl
  have hsize := length_le_size ctx (.branch .left base c x y)
  rw [size_eq_length (ctx.plug _), hl] at hsize
  -- below `base`, what is up to it is smaller, what is after it larger
  obtain ⟨parent, d, hrun, hlink⟩ := fragtreeLink_spec (s.frag new).ofs fuel
    (x.toList ++ [base]) y.toList ht
    (fun z hz => hfrags z (mem_cons_of_mem _ (by rw [← hl]; exact mem_plug.mpr (.inl hz))))
    (root?_branch ..)
    (by simp [branch, PtrTree.toList])
    (fun z hz => hlo z (by
      rcases List.mem_append.mp hz with hz | hz
      · simp [hz]
      · exact mem_append_right _ hz))
    (fun z hz => hc.trans_le (hright.mem_range (mem_append_left _ hz)).1) (by omega)
  rw [hl] at hlink
  obtain ⟨tree, htree, hist, hframe⟩ := linkAndColor_spec
    ⟨_, ht, hrb, hl⟩ hfuel hlink hnew haddr hold
  refine ⟨tree, ?_, ?_, hframe⟩
  · simp only [jffs2FragtreeInsert, hfrags new mem_cons_self, bind_eq_bind, bind_some, hrun, htree]
  · simpa using hist

end BoardStack.Jffs2
