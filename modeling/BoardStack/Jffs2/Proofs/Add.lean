/-
`jffs2_add_full_dnode_to_inode`: the file with a new node written over it.

Each way the new fragment can lie against the old ones is one lemma: beyond
the end, with a hole before it or not; inside one fragment, which is split;
from the middle or the start of one fragment on, over any number of others.
-/
import BoardStack.Jffs2.Proofs.Overlap

namespace BoardStack.Jffs2

open Base Rbtree Function List Option

variable {a : WordSize}

def overwrite (g : Nat → Option Nat) (ofs size fn : Nat) : Nat → Option Nat :=
  fun i => if ofs ≤ i ∧ i < ofs + size then some fn else g i

/-- The state between two calls: the fragments show `g`, the nodes fit them,
and there is nothing beyond the end. -/
structure FileOk (s : Inode a) (added : Nat → Prop) (g : Nat → Option Nat)
    (l : List (Word a)) (stop : Nat) : Prop where
  list : FragList s g l stop
  nodes : NodesOk s added l
  beyond : ∀ i, stop ≤ i → g i = none

/-- The state in which `jffs2_add_frag_to_fragtree` is called: a fragment `p`
for the whole of the node `fn`, not yet in the tree. -/
structure Ready (s : Inode a) (g : Nat → Option Nat) (l : List (Word a))
    (stop : Nat) (p : Word a) (fn ofs size : Nat) : Prop where
  list : FragList s g l stop
  beyond : ∀ i, stop ≤ i → g i = none
  addr : IsAddr p
  new : p ∉ l
  frags : s.frags p = some ⟨some fn, size, ofs⟩
  heap : ∃ old, s.fragtree.heap p = some old
  size_pos : 0 < size
  end_lt : ofs + size < 2 ^ 32

/-- What the call leaves: the new file, with the fragment in its tree. -/
def Written (s : Inode a) (added : Nat → Prop) (g : Nat → Option Nat)
    (p : Word a) (f : NodeFrag) : Prop :=
  ∃ l1 l2 stop, FileOk s added g (l1 ++ p :: l2) stop ∧ s.frag p = f

/-- Memory the allocator may hand out for one more fragment. -/
structure Fresh (m : Chunk a) (l : List (Word a)) : Prop where
  addr : IsAddr m.addr
  new : m.addr ∉ l

-- == new fragments

section

variable {s : Inode a} {l : List (Word a)} {m : Chunk a} {f : NodeFrag}
  {new q : Word a} {fuel : Nat}

def withFrag (s : Inode a) (m : Chunk a) (f : NodeFrag) : Inode a :=
  { s with
    fragtree := s.fragtree.write m.addr m.junk
    frags := update s.frags m.addr (some f) }

lemma newFragment_some (fn : Option Nat) (ofs size : Nat) :
    newFragment s (some m) fn ofs size = (m.addr, withFrag s m ⟨fn, size, ofs⟩) := rfl

lemma frags_withFrag_self : (withFrag s m f).frags m.addr = some f := update_self _ _ _

lemma frag_withFrag_self : (withFrag s m f).frag m.addr = f := by
  unfold Inode.frag
  rw [frags_withFrag_self]
  rfl

lemma frags_withFrag_ne (h : q ≠ m.addr) :
    (withFrag s m f).frags q = s.frags q := update_of_ne h _ _

lemma frag_withFrag_ne (h : q ≠ m.addr) : (withFrag s m f).frag q = s.frag q := by
  unfold Inode.frag
  rw [frags_withFrag_ne h]

lemma isTree_withFrag (h : IsTree s.fragtree l) (hm : m.addr ∉ l) :
    IsTree (withFrag s m f).fragtree l :=
  h.congr rfl fun _ hq => heap_write_ne s.fragtree m.junk (fun e => hm (e ▸ hq))

lemma linkLast_spec {old : RbNode a} (h : IsTree s.fragtree l) (hfuel : l.length < fuel)
    (hnew : new ∉ l) (haddr : IsAddr new) (hold : s.fragtree.heap new = some old) :
    ∃ tree, linkLast fuel s new (addr l.getLast?) = some { s with fragtree := tree } ∧
      IsTree tree (l ++ [new]) ∧ TreeFrame s tree (new :: l) := by
  obtain ⟨tree, hrun, htree, hframe⟩ := linkAndColor_spec h hfuel h.emptyLink_last hnew haddr hold
  refine ⟨tree, ?_, htree, hframe⟩
  unfold linkLast
  rcases eq_nil_or_concat l with rfl | ⟨l1, x, rfl⟩
  · exact (if_pos rfl).trans hrun
  · rw [concat_eq_append] at h hrun ⊢
    rw [List.getLast?_concat, addr_some] at hrun ⊢
    rw [if_neg (h.isAddr (p := x) (by simp)).1, ← hrun, if_neg (by simp)]

end

section

variable {s : Inode a} {added : Nat → Prop} {g : Nat → Option Nat}
  {l l1 l2 : List (Word a)} {stop fn ofs size fuel : Nat} {p x : Word a}
  {m : Chunk a}

lemma Ready.frag_eq (h : Ready s g l stop p fn ofs size) : s.frag p = ⟨some fn, size, ofs⟩ := by
  unfold Inode.frag
  rw [h.frags]
  rfl

lemma shows_new {s' : Inode a} (hp : s'.frag p = ⟨some fn, size, ofs⟩) (hsize : 0 < size) :
    (segment s').Shows (overwrite g ofs size fn) ofs [p] (ofs + size) := by
  refine Segment.shows_singleton.mpr ⟨?_, ?_, ?_, fun i hlo hhi => ?_⟩
  · rw [segment_ofs, hp]
  · rw [segment_size, hp]
    exact hsize
  · rw [segment_size, hp]
  · rw [segment_val, hp, overwrite, if_pos ⟨hlo, hhi⟩]

lemma overwrite_before {i : Nat} (h : i < ofs) : overwrite g ofs size fn i = g i :=
  if_neg (fun hi => absurd hi.1 (by omega))

lemma overwrite_after {i : Nat} (h : ofs + size ≤ i) : overwrite g ofs size fn i = g i :=
  if_neg (fun hi => absurd hi.2 (by omega))

variable {tree : Rb a}

lemma written_append {s' : Inode a}
    (hlist : FragList s' g l ofs) (hframe : s'.frag p = ⟨some fn, size, ofs⟩)
    (hnodes : NodesOk s' added (p :: l)) (htree : IsTree tree (l ++ [p]))
    (hbeyond : ∀ i, ofs ≤ i → g i = none) (hsize : 0 < size) (hend : ofs + size < 2 ^ 32) :
    Written { s' with fragtree := tree } added (overwrite g ofs size fn) p
      ⟨some fn, size, ofs⟩ := by
  refine ⟨l, [], ofs + size, ⟨⟨htree, ?_, hend⟩, ?_, ?_⟩, hframe⟩
  · refine Segment.shows_append.mpr ⟨ofs, ?_, shows_new hframe hsize⟩
    exact hlist.shows.congr fun i _ hi => (overwrite_before hi).symm
  · exact hnodes.congr perm_append_comm (fun _ _ => rfl) rfl rfl
  · intro i hi
    rw [overwrite_after hi, hbeyond i (by omega)]

lemma hole_spec {s1 : Inode a} (hs1 : s1 = withFrag s m ⟨none, ofs - stop, stop⟩)
    (h : Ready s g l stop p fn ofs size) (hnodes : NodesOk s added (p :: l)) (hgap : stop < ofs)
    (hm : Fresh m (p :: l)) (hfuel : l.length + 1 < fuel) :
    ∃ tree, linkLast fuel s1 m.addr (addr l.getLast?) = some { s1 with fragtree := tree } ∧
      FragList { s1 with fragtree := tree } g (l ++ [m.addr]) ofs ∧
      NodesOk { s1 with fragtree := tree } added (p :: (l ++ [m.addr])) ∧
      TreeFrame s1 tree (m.addr :: l) := by
  subst hs1
  have hml : m.addr ∉ l := fun hx => hm.new (mem_cons_of_mem _ hx)
  have hlen : l.length < fuel := by omega
  have hend := h.end_lt
  have hother : ∀ y ∈ p :: l, (withFrag s m ⟨none, ofs - stop, stop⟩).frag y
      = s.frag y := fun y hy => frag_withFrag_ne (fun e => hm.new (e ▸ hy))
  obtain ⟨tree, hrun, htree, hframe⟩ := linkLast_spec
    (isTree_withFrag (f := ⟨none, ofs - stop, stop⟩) h.list.tree hml) hlen
    hml hm.addr (heap_write_self s.fragtree m.addr m.junk)
  refine ⟨tree, hrun, ⟨htree, ?_, by omega⟩, ?_, hframe⟩
  · refine Segment.shows_append.mpr ⟨stop, shows_congr h.list.shows
      fun y hy => hother y (mem_cons_of_mem p hy), ?_⟩
    have hself : ({ withFrag s m ⟨none, ofs - stop, stop⟩ with
        fragtree := tree } : Inode a).frag m.addr = ⟨none, ofs - stop, stop⟩ := frag_withFrag_self
    refine Segment.shows_singleton.mpr ⟨?_, ?_, ?_, fun i hlo _ => ?_⟩
    · rw [segment_ofs, hself]
    · rw [segment_size, hself]
      show 0 < ofs - stop
      omega
    · rw [segment_size, hself]
      show stop + (ofs - stop) = ofs
      omega
    · rw [segment_val, hself, h.beyond i hlo]
  · have hnodes' : NodesOk (withFrag s m ⟨none, ofs - stop, stop⟩) added (m.addr :: p :: l) := by
      refine (nodesOk_hole (by rw [frag_withFrag_self])).mpr ?_
      exact hnodes.congr (.refl _) (fun y hy => by rw [hother y hy]) rfl rfl
    exact hnodes'.congr (((perm_append_singleton m.addr l).cons p).trans
      (.swap ..)) (fun _ _ => rfl) rfl rfl

lemma noOverlappingNode_spec {d : FullDnode} (h : Ready s g l stop p fn ofs size)
    (hnodes : NodesOk s added (p :: l)) (hd : s.nodes fn = some d) (hofs : d.ofs = ofs)
    (hstop : stop ≤ ofs) (hm : Fresh m (p :: l)) (hfuel : l.length + 1 < fuel) :
    ∃ s', noOverlappingNode fuel s p (addr l.getLast?) stop (some m) = some (0, s') ∧
      Written s' added (overwrite g ofs size fn) p ⟨some fn, size, ofs⟩ := by
  obtain ⟨old, hold⟩ := h.heap
  have hpm : p ≠ m.addr := fun e => hm.new (by simp [e])
  unfold noOverlappingNode
  simp only [h.frags, bind_eq_bind, bind_some, hd, hofs,
    newFragment_some, sub32_eq hstop, if_neg hm.addr.1]
  by_cases hgap : stop < ofs
  · rw [if_pos hgap]
    obtain ⟨tree1, hrun1, hlist1, hnodes1, hframe1⟩ := hole_spec rfl h hnodes hgap hm hfuel
    have hlen : (l ++ [m.addr]).length < fuel := by simpa using hfuel
    have hnew : p ∉ l ++ [m.addr] := by
      rw [mem_append, mem_singleton]
      exact fun hx => hx.elim h.new hpm
    have hpl : p ∉ m.addr :: l := by
      rw [mem_cons]
      exact fun hx => hx.elim hpm h.new
    have hold1 : tree1.heap p = some old := by
      rw [hframe1 p hpl]
      exact (heap_write_ne s.fragtree m.junk hpm).trans hold
    obtain ⟨tree2, hrun2, htree2, -⟩ := linkLast_spec hlist1.tree hlen hnew h.addr hold1
    rw [List.getLast?_concat, addr_some] at hrun2
    refine ⟨_, ?_, written_append hlist1 ?_ hnodes1 htree2 ?_ h.size_pos h.end_lt⟩
    · rw [hrun1, bind_some, hrun2]
      rfl
    · exact (frag_withFrag_ne hpm).trans h.frag_eq
    · exact fun i hi => h.beyond i (by omega)
  · rw [if_neg hgap]
    obtain rfl : stop = ofs := by omega
    have hlen : l.length < fuel := by omega
    obtain ⟨tree, hrun, htree, -⟩ := linkLast_spec h.list.tree hlen h.new h.addr hold
    refine ⟨{ s with fragtree := tree }, ?_, written_append h.list h.frag_eq
      hnodes htree h.beyond h.size_pos h.end_lt⟩
    rw [hrun]
    rfl

-- == inside a fragment

lemma FragList.around (h : FragList s g (l1 ++ x :: l2) stop) :
    (segment s).Shows g 0 l1 (s.frag x).ofs ∧ (segment s).Shows g ((segment s).stop x) l2 stop ∧
      ∀ i, (s.frag x).ofs ≤ i → i < (segment s).stop x → g i = (s.frag x).node := by
  obtain ⟨b, h1, h2⟩ := Segment.shows_append.mp h.shows
  obtain ⟨hofs, -, hval, hrest⟩ := Segment.shows_cons.mp h2
  subst hofs
  exact ⟨h1, hrest, hval⟩

lemma FragList.ne (h : FragList s g (l1 ++ x :: l2) stop) :
    (∀ y ∈ l1, y ≠ x) ∧ ∀ y ∈ l2, y ≠ x := by
  have hnd := h.tree.nodup
  rw [perm_middle.nodup_iff, nodup_cons, mem_append, not_or] at hnd
  exact ⟨fun y hy e => hnd.1.1 (e ▸ hy), fun y hy e => hnd.1.2 (e ▸ hy)⟩

lemma Ready.ne (h : Ready s g (l1 ++ x :: l2) stop p fn ofs size) : p ≠ x :=
  fun e => h.new (by simp [e])

lemma Ready.notMem (h : Ready s g (l1 ++ x :: l2) stop p fn ofs size) : x ∉ l1 ++ p :: l2 := by
  simp only [mem_append, mem_cons, not_or]
  exact ⟨fun hx => h.list.ne.1 x hx rfl, h.ne.symm, fun hx => h.list.ne.2 x hx rfl⟩

/-- The fragment `x` with what is left before an offset inside it. -/
def shrunk (s : Inode a) (x : Word a) (ofs : Nat) : Inode a :=
  s.setFrag x { s.frag x with size := ofs - (s.frag x).ofs }

lemma FragList.shows_shrunk (h : FragList s g (l1 ++ x :: l2) stop)
    (hlo : (s.frag x).ofs < ofs) (hhi : ofs < (segment s).stop x) :
    (segment (shrunk s x ofs)).Shows g 0 (l1 ++ [x]) ofs ∧
      (segment (shrunk s x ofs)).Shows g ((segment s).stop x) l2 stop := by
  obtain ⟨hleft, hright, hval⟩ := h.around
  obtain ⟨hne1, hne2⟩ := h.ne
  have hself : (shrunk s x ofs).frag x = { s.frag x with size := ofs - (s.frag x).ofs } :=
    frag_setFrag_self s x _
  have hother : ∀ y, y ≠ x → (shrunk s x ofs).frag y = s.frag y :=
    fun y hy => frag_setFrag_ne s _ hy
  refine ⟨Segment.shows_append.mpr ⟨(s.frag x).ofs,
    shows_congr hleft fun y hy => hother y (hne1 y hy),
    Segment.shows_singleton.mpr ⟨?_, ?_, ?_, fun i hi hi' => ?_⟩⟩,
    shows_congr hright fun y hy => hother y (hne2 y hy)⟩
  · rw [segment_ofs, hself]
  · rw [segment_size, hself]
    exact Nat.sub_pos_of_lt hlo
  · rw [segment_size, hself]
    exact Nat.add_sub_cancel' (le_of_lt hlo)
  · rw [segment_val, hself]
    exact hval i hi (by omega)

lemma shrinkInsert_spec (h : Ready s g (l1 ++ x :: l2) stop p fn ofs size)
    (hlo : (s.frag x).ofs < ofs) (hhi : ofs < (segment s).stop x)
    (hfuel : (l1 ++ x :: l2).length < fuel) :
    ∃ tree, jffs2FragtreeInsert fuel (shrunk s x ofs) p x
        = some { shrunk s x ofs with fragtree := tree } ∧
      IsTree tree (l1 ++ x :: p :: l2) ∧
      TreeFrame s tree (p :: (l1 ++ x :: l2)) ∧
      (segment (shrunk s x ofs)).Shows (overwrite g ofs size fn) 0
        ((l1 ++ [x]) ++ [p]) (ofs + size) ∧
      (segment (shrunk s x ofs)).Shows g ((segment s).stop x) l2 stop := by
  obtain ⟨old, hold⟩ := h.heap
  obtain ⟨hleft, hright⟩ := h.list.shows_shrunk hlo hhi
  have hp : (shrunk s x ofs).frag p = _ := (frag_setFrag_ne s _ h.ne).trans h.frag_eq
  have hnew := shows_new (g := g) hp h.size_pos
  obtain ⟨hofs, hpos, -⟩ := Segment.shows_singleton.mp hnew
  obtain ⟨tree, hrun, htree, hframe⟩ := jffs2FragtreeInsert_spec
    (s := shrunk s x ofs) h.list.tree hfuel hleft hofs.ge hright (hofs.trans_lt hhi) hpos h.new
    h.addr hold
  exact ⟨tree, hrun, htree, hframe, Segment.shows_append.mpr ⟨ofs,
    hleft.congr fun i _ hi => (overwrite_before hi).symm, hnew⟩, hright⟩

lemma Ready.withFrag {f : NodeFrag} {nodes : Nat → Option FullDnode}
    (h : Ready s g l stop p fn ofs size) (hm : Fresh m (p :: l)) :
    Ready { withFrag s m f with nodes := nodes } g l stop p fn ofs size := by
  obtain ⟨old, hold⟩ := h.heap
  have hpm : p ≠ m.addr := fun e => hm.new (by simp [e])
  have hml : m.addr ∉ l := fun hx => hm.new (mem_cons_of_mem _ hx)
  have hshows : (segment (Jffs2.withFrag s m f)).Shows g 0 l stop :=
    shows_congr h.list.shows fun y hy =>
      frag_withFrag_ne (fun e => hml (e ▸ hy))
  have htree : IsTree (Jffs2.withFrag s m f).fragtree l := isTree_withFrag h.list.tree hml
  refine ⟨⟨htree, hshows, h.list.bound⟩, h.beyond, h.addr,
    h.new, ?_, ⟨old, ?_⟩, h.size_pos, h.end_lt⟩
  · exact (frags_withFrag_ne hpm).trans h.frags
  · exact (heap_write_ne s.fragtree m.junk hpm).trans hold

lemma FragList.length_add_size (h : FragList s g (l1 ++ x :: l2) stop) :
    (l1 ++ x :: l2).length + (s.frag x).size < 2 ^ 32 + 1 := by
  obtain ⟨hleft, hright, -⟩ := h.around
  have h1 := hleft.length_le
  have h2 := hright.length_le
  have hbound := h.bound
  rw [segment_stop] at h2
  rw [length_append, length_cons]
  omega

lemma splitFrag_spec (h : Ready s g (l1 ++ x :: l2) stop p fn ofs size)
    (hnodes : NodesOk s added (p :: (l1 ++ x :: l2)))
    (hlo : (s.frag x).ofs < ofs) (hhi : ofs + size < (segment s).stop x)
    (hm : Fresh m (p :: (l1 ++ x :: l2))) (hfuel : (l1 ++ x :: l2).length + 1 < fuel) :
    ∃ s', splitFrag fuel s p x ⟨some fn, size, ofs⟩ (s.frag x) (some m) = some (0, s') ∧
      Written s' added (overwrite g ofs size fn) p ⟨some fn, size, ofs⟩ := by
  have hxl : x ∈ l1 ++ x :: l2 := by simp
  have hlen := h.list.length_add_size
  have hlen1 : (l1 ++ x :: l2).length < fuel := by omega
  have hsize := h.size_pos
  have hxstop := h.list.end_eq hxl
  have hbound := (h.list.shows.mem_range hxl).2.2
  have hstop := h.list.bound
  have hxm : x ≠ m.addr := fun e => hm.new (by simp [e])
  rw [segment_stop] at hhi hxstop hbound
  -- the second half, counted for its node
  let f2 : NodeFrag := ⟨(s.frag x).node, (s.frag x).ofs + (s.frag x).size - ofs - size, ofs + size⟩
  have hkeep : ∀ y ∈ p :: (l1 ++ x :: l2), (withFrag s m f2).frag y
      = s.frag y := fun y hy => frag_withFrag_ne (fun e => hm.new (e ▸ hy))
  have hx1 : (withFrag s m f2).frag x = s.frag x := frag_withFrag_ne hxm
  have hnodes1 : NodesOk (withFrag s m f2) added (p :: (l1 ++ x :: l2)) :=
    hnodes.congr (.refl _) (fun y hy => by rw [hkeep y hy]) rfl rfl
  obtain ⟨nodes, hshare, hnodes2⟩ := shareNode_spec (q := m.addr) hnodes1
    (mem_cons_of_mem p hxl) (by rw [frag_withFrag_self, hx1])
    (by rw [length_cons]; omega)
  rw [hx1] at hshare
  let s2 : Inode a := { withFrag s m f2 with nodes := nodes }
  have hready : Ready s2 g (l1 ++ x :: l2) stop p fn ofs size := h.withFrag hm
  have hx2 : s2.frag x = s.frag x := hx1
  -- the first half, then the new fragment
  obtain ⟨tree1, hrun1, htree1, hframe1, hleft, hright⟩ :=
    shrinkInsert_spec hready (by rw [hx2]; exact hlo) (by rw [segment_stop, hx2]; omega) hlen1
  rw [segment_stop, hx2] at hright
  let s3 : Inode a := { shrunk s2 x ofs with fragtree := tree1 }
  have hm3 : s3.frags m.addr = some f2 := (update_of_ne hxm.symm _ _).trans frags_withFrag_self
  have hmfrag : s3.frag m.addr = f2 := by
    unfold Inode.frag
    rw [hm3]
    rfl
  have hjoin : l1 ++ x :: p :: l2 = (l1 ++ [x]) ++ p :: l2 := by simp
  rw [hjoin] at htree1
  have hlen2 : ((l1 ++ [x]) ++ p :: l2).length < fuel := by
    simp only [length_append, length_cons, length_nil] at hfuel ⊢
    omega
  have hnew2 : m.addr ∉ (l1 ++ [x]) ++ p :: l2 := by
    intro hmem
    refine hm.new ?_
    simp only [mem_append, mem_cons, not_mem_nil, or_false] at hmem ⊢
    rcases hmem with (hmem | hmem) | hmem | hmem <;> simp [hmem]
  have hold2 : s3.fragtree.heap m.addr = some m.junk :=
    (hframe1 m.addr hm.new).trans (heap_write_self s.fragtree m.addr m.junk)
  obtain ⟨tree2, hrun2, htree2, -⟩ := jffs2FragtreeInsert_spec (s := s3)
    htree1 hlen2 hleft (by rw [hmfrag]) hright (by rw [hmfrag]; exact hhi)
    (by rw [segment_size, hmfrag]; show 0 < _ - _ - _; omega) hnew2 hm.addr hold2
  refine ⟨{ s3 with fragtree := tree2 }, ?_, l1 ++ [x], m.addr :: l2, stop,
    ⟨⟨htree2, ?_, hstop⟩, ?_, ?_⟩, ?_⟩
  · have hshr : s2.setFrag x { s.frag x with size := ofs - (s.frag x).ofs }
        = shrunk s2 x ofs := by rw [shrunk, hx2]
    have hsub1 : sub32 ((s.frag x).ofs + (s.frag x).size) ofs
        = (s.frag x).ofs + (s.frag x).size - ofs := sub32_eq (by omega)
    have hsub2 : sub32 ((s.frag x).ofs + (s.frag x).size - ofs) size
        = (s.frag x).ofs + (s.frag x).size - ofs - size := sub32_eq (by omega)
    have hsub3 : sub32 ofs (s.frag x).ofs = ofs - (s.frag x).ofs := sub32_eq (by omega)
    simp only [splitFrag, newFragment_some, if_neg hm.addr.1,
      add32_eq h.end_lt, hxstop, bind_eq_bind, hsub1, hsub2, hsub3]
    rw [hshare, bind_some, hshr, hrun1, bind_some, hrun2]
    rfl
  · exact hleft.join (shows_remainder (hmfrag.trans (by rw [← Nat.sub_sub])) (by omega) hhi
      h.list.around.2.2 (fun i hi => overwrite_after hi) hright)
  · have hnodes3 : NodesOk (shrunk s2 x ofs) added _ := hnodes2.setFrag (x := x) rfl
    refine hnodes3.congr ?_ (fun _ _ => rfl) rfl rfl
    refine perm_middle.trans ?_
    refine (perm_middle.cons p).trans ?_
    rw [append_assoc, singleton_append]
    exact .swap ..
  · intro i hi
    rw [overwrite_after (by omega), h.beyond i hi]
  · have hpm : p ≠ m.addr := fun e => hm.new (by simp [e])
    exact (frag_setFrag_ne s2 _ h.ne).trans ((frag_withFrag_ne hpm).trans h.frag_eq)

-- == over fragments

lemma Ready.setRaw (h : Ready s g l stop p fn ofs size) (raw : Nat → RefFlags) :
    Ready { s with raw := raw } g l stop p fn ofs size :=
  ⟨⟨h.list.tree, h.list.shows, h.list.bound⟩, h.beyond, h.addr, h.new,
    h.frags, h.heap, h.size_pos, h.end_lt⟩

lemma written_of_overlap {b : Nat}
    (h : Overlap s added g (overwrite g ofs size fn) l1 p l2 b (ofs + size) stop)
    (hfrag : s.frag p = ⟨some fn, size, ofs⟩) (hbeyond : ∀ i, stop ≤ i → g i = none)
    (hfuel : (l1 ++ p :: l2).length + 1 < fuel) :
    ∃ s', dealWithOverlap fuel s p = some (0, s') ∧ Written s' added (overwrite g ofs size fn) p
        ⟨some fn, size, ofs⟩ := by
  obtain ⟨s', l3, hrun, hlist, hnodes, hkeep⟩ := dealWithOverlap_spec h (by rw [hfrag]) hfuel
  refine ⟨s', hrun, l1, l3, _, ⟨hlist, hnodes, fun i hi => ?_⟩, hkeep.trans hfrag⟩
  rw [overwrite_after (by omega), hbeyond i (by omega)]

section

variable (h : Ready s g (l1 ++ x :: l2) stop p fn ofs size)

include h

lemma shrink_written (hnodes : NodesOk s added (p :: (l1 ++ x :: l2)))
    (hlo : (s.frag x).ofs < ofs) (hhi : ofs < (segment s).stop x)
    (hend : (segment s).stop x ≤ ofs + size) (hfuel : (l1 ++ x :: l2).length + 2 < fuel) :
    ∃ s1 s', jffs2FragtreeInsert fuel (shrunk s x ofs) p x = some s1 ∧
      dealWithOverlap fuel s1 p = some (0, s') ∧
      Written s' added (overwrite g ofs size fn) p ⟨some fn, size, ofs⟩ := by
  have hlen : (l1 ++ x :: l2).length < fuel := by omega
  obtain ⟨tree, hrun, htree, -, hleft, hright⟩ := shrinkInsert_spec h hlo hhi hlen
  have hjoin : l1 ++ x :: p :: l2 = (l1 ++ [x]) ++ p :: l2 := by simp
  rw [hjoin] at htree
  have hnodes' : NodesOk (shrunk s x ofs) added (p :: (l1 ++ x :: l2)) := hnodes.setFrag rfl
  have hov : Overlap { shrunk s x ofs with fragtree := tree } added g
      (overwrite g ofs size fn) (l1 ++ [x]) p l2 ((segment s).stop x)
      (ofs + size) stop :=
    { tree := htree
      left := hleft
      right := hright
      le := hend
      same := fun i hi => overwrite_after hi
      nodes := hnodes'.congr (perm_middle.trans (by simp)) (fun _ _ => rfl) rfl rfl
      end_lt := h.end_lt
      stop_lt := h.list.bound }
  have hlen' : ((l1 ++ [x]) ++ p :: l2).length + 1 < fuel := by
    simp only [length_append, length_cons, length_nil] at hfuel ⊢
    omega
  obtain ⟨s', hrun', hwritten⟩ := written_of_overlap hov
    ((frag_setFrag_ne s _ h.ne).trans h.frag_eq) h.beyond hlen'
  exact ⟨_, s', hrun, hrun', hwritten⟩

lemma replace_tree :
    ∃ tree, rbReplaceNode s.fragtree x p = some tree ∧ IsTree tree (l1 ++ p :: l2) ∧
      tree.heap x = s.fragtree.heap x := by
  obtain ⟨old, hold⟩ := h.heap
  obtain ⟨tree, hrun, htree, hframe⟩ := h.list.tree.replace h.addr hold h.new
  exact ⟨tree, hrun, htree, hframe x (h.ne.symm) (.inl rfl)⟩

lemma replace_written (hnodes : NodesOk s added (p :: (l1 ++ x :: l2)))
    (hofs : (s.frag x).ofs = ofs) (hend : (segment s).stop x ≤ ofs + size)
    (hfuel : (l1 ++ x :: l2).length + 1 < fuel) (htree : IsTree tree (l1 ++ p :: l2)) :
    ∃ s1 s', jffs2ObsoleteNodeFrag { s with fragtree := tree } x = some s1 ∧
      dealWithOverlap fuel s1 p = some (0, s') ∧
      Written s' added (overwrite g ofs size fn) p ⟨some fn, size, ofs⟩ := by
  obtain ⟨hne1, hne2⟩ := h.list.ne
  obtain ⟨hleft, hright, -⟩ := h.list.around
  rw [hofs] at hleft
  have hnodes' : NodesOk { s with fragtree := tree } added (x :: (l1 ++ p :: l2)) := by
    refine hnodes.congr ?_ (fun _ _ => rfl) rfl rfl
    refine (perm_middle.cons x).trans ((List.Perm.swap ..).trans ?_)
    exact (perm_middle.symm.cons p)
  obtain ⟨nodes, raw, hobs, hnodes1⟩ := jffs2ObsoleteNodeFrag_spec hnodes'
    (h.list.frags_eq (p := x) (by simp)) h.notMem
  have hother : ∀ y, y ≠ x → (jffs2FreeNodeFrag { s with
      fragtree := tree, nodes := nodes, raw := raw } x).frag y = s.frag y :=
    fun y hy => frag_free_ne _ hy
  have hnew := (hother p h.ne).trans h.frag_eq
  have hov : Overlap (jffs2FreeNodeFrag { s with
      fragtree := tree, nodes := nodes, raw := raw } x) added g
      (overwrite g ofs size fn) l1 p l2 ((segment s).stop x) (ofs + size)
      stop :=
    { tree := htree.congr rfl fun q hq =>
        update_of_ne (fun e : q = x => h.notMem (e ▸ hq)) _ _
      left := Segment.shows_append.mpr ⟨ofs, Segment.Shows.congr
        (shows_congr hleft fun y hy => hother y (hne1 y hy))
        fun i _ hi => (overwrite_before hi).symm, shows_new hnew h.size_pos⟩
      right := shows_congr hright fun y hy =>
        hother y (hne2 y hy)
      le := hend
      same := fun i hi => overwrite_after hi
      nodes := hnodes1
      end_lt := h.end_lt
      stop_lt := h.list.bound }
  have hlen : (l1 ++ p :: l2).length + 1 < fuel := by
    simpa only [length_append, length_cons] using hfuel
  obtain ⟨s', hrun', hwritten⟩ := written_of_overlap hov hnew h.beyond hlen
  exact ⟨_, s', hobs, hrun', hwritten⟩

lemma replace_split (hnodes : NodesOk s added (p :: (l1 ++ x :: l2)))
    (hofs : (s.frag x).ofs = ofs) (hend : ofs + size < (segment s).stop x)
    (hfuel : (l1 ++ x :: l2).length < fuel) (htree : IsTree tree (l1 ++ p :: l2))
    (hheap : tree.heap x = s.fragtree.heap x) :
    ∃ s', jffs2FragtreeInsert fuel (Inode.setFrag { s with fragtree := tree } x { s.frag x with
            ofs := ofs + size, size := (s.frag x).size - size }) x p
        = some s' ∧
      Written s' added (overwrite g ofs size fn) p ⟨some fn, size, ofs⟩ := by
  have hsize := h.size_pos
  obtain ⟨hne1, hne2⟩ := h.list.ne
  obtain ⟨hleft, hright, hval⟩ := h.list.around
  obtain ⟨old, hold⟩ := h.list.tree.exists_node (p := x) (by simp)
  rw [segment_stop] at hend hright hval
  let t : NodeFrag := { s.frag x with
    ofs := ofs + size, size := (s.frag x).size - size }
  let s1 : Inode a := Inode.setFrag { s with fragtree := tree } x t
  have hself : s1.frag x = t := frag_setFrag_self _ x t
  have hother : ∀ y, y ≠ x → s1.frag y = s.frag y := fun y hy => frag_setFrag_ne _ t hy
  have hnew : s1.frag p = ⟨some fn, size, ofs⟩ := (hother p h.ne).trans h.frag_eq
  have hleft' : (segment s1).Shows (overwrite g ofs size fn) 0 (l1 ++ [p]) (ofs + size) := by
    refine Segment.shows_append.mpr ⟨ofs, ?_, shows_new hnew hsize⟩
    rw [hofs] at hleft
    exact Segment.Shows.congr (shows_congr hleft fun y hy =>
      hother y (hne1 y hy)) fun i _ hi => (overwrite_before hi).symm
  have hright' := shows_congr hright fun y hy => hother y (hne2 y hy)
  have hlen : (l1 ++ p :: l2).length < fuel := by
    simpa only [length_append, length_cons] using hfuel
  obtain ⟨tree2, hrun, htree2, -⟩ := jffs2FragtreeInsert_spec (s := s1)
    htree hlen hleft' (by rw [hself]) hright' (by rw [hself]; exact hend)
    (by rw [segment_size, hself]; show 0 < _ - _; omega) h.notMem
    (h.list.tree.isAddr (p := x) (by simp)) (hheap.trans hold)
  refine ⟨_, hrun, l1, x :: l2, stop, ⟨⟨htree2, ?_, h.list.bound⟩, ?_, ?_⟩, hnew⟩
  · refine hleft'.join (shows_remainder (f := s.frag x) (hself.trans ?_) (by omega) hend hval
      (fun i hi => overwrite_after hi) hright')
    show (⟨_, (s.frag x).size - size, _⟩ : NodeFrag) = _
    rw [hofs, Nat.add_sub_add_left]
  · have hnodes1 : NodesOk s1 added (p :: (l1 ++ x :: l2)) := by
      have hbase : NodesOk { s with fragtree := tree } added (p :: (l1 ++ x :: l2)) :=
        hnodes.congr (.refl _) (fun _ _ => rfl) rfl rfl
      exact hbase.setFrag rfl
    exact hnodes1.congr perm_middle (fun _ _ => rfl) rfl rfl
  · intro i hi
    have hle := (h.list.shows.mem_range (x := x) (by simp)).2.2
    rw [segment_stop] at hle
    rw [overwrite_after (by omega), h.beyond i hi]

end

end

end BoardStack.Jffs2
