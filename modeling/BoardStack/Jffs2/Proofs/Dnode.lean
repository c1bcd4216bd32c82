/-
`jffs2_add_full_dnode_to_inode` and `jffs2_truncate_fragtree`, from their parts.

The search finds the fragment the new node starts in, or the last one; which
of the lemmas about a new fragment applies is then a comparison of offsets.
The marks before and after touch the nodes of fragments only.

Where a file is cut off, the fragment the cut goes through is shortened and those
after it leave the tree. `Cutting` is the state in between: the fragments to keep
show the file up to the cut, the others start at it or later.
-/
import BoardStack.Jffs2.Proofs.Add

namespace BoardStack.Jffs2

open Base Rbtree Function List Option

variable {a : WordSize}

section

variable {s : Inode a} {added : Nat → Prop} {g : Nat → Option Nat}
  {l l1 l2 : List (Word a)} {stop fn ofs size fuel : Nat} {p x : Word a}
  {m : Chunk a}

lemma overlappingNode_spec (h : Ready s g (l1 ++ x :: l2) stop p fn ofs size)
    (hnodes : NodesOk s added (p :: (l1 ++ x :: l2)))
    (hlo : (s.frag x).ofs ≤ ofs) (hhi : ofs < (segment s).stop x)
    (hm : Fresh m (p :: (l1 ++ x :: l2))) (hfuel : (l1 ++ x :: l2).length + 2 < fuel) :
    ∃ s', overlappingNode fuel s p x fn ⟨some fn, size, ofs⟩ (s.frag x) (some m) = some (0, s') ∧
      Written s' added (overwrite g ofs size fn) p ⟨some fn, size, ofs⟩ := by
  have hxl : x ∈ l1 ++ x :: l2 := by simp
  have hend := h.list.end_eq hxl
  have hfuel1 : (l1 ++ x :: l2).length + 1 < fuel := by omega
  have hfuel2 : (l1 ++ x :: l2).length < fuel := by omega
  unfold overlappingNode
  simp only [hend, add32_eq h.end_lt, bind_eq_bind]
  by_cases hofs : (s.frag x).ofs < ofs
  · rw [if_pos hofs]
    obtain ⟨raw1, raw2, hraw1, hraw2, hnodes1⟩ := markTwoNormal_spec hnodes
      (mem_cons_self (a := p)) (mem_cons_of_mem p hxl)
    rw [h.frag_eq] at hraw1
    rw [hraw1, bind_some, hraw2, bind_some]
    by_cases hin : ofs + size < (segment s).stop x
    · rw [if_pos hin]
      exact splitFrag_spec (h.setRaw raw2) hnodes1 hofs hin hm hfuel1
    rw [if_neg hin]
    obtain ⟨s1, s', hrun1, hrun, hwritten⟩ := shrink_written
      (h.setRaw raw2) hnodes1 hofs hhi (Nat.le_of_not_lt hin) hfuel
    refine ⟨s', ?_, hwritten⟩
    rw [sub32_eq hlo]
    exact (congrArg (Option.bind · _) hrun1).trans hrun
  · rw [if_neg hofs]
    obtain rfl : (s.frag x).ofs = ofs := by omega
    obtain ⟨tree, htree, hist, hheap⟩ := replace_tree h
    rw [Inode.onTree, htree, map_some, bind_some]
    by_cases hin : (segment s).stop x ≤ (s.frag x).ofs + size
    · rw [if_pos hin]
      obtain ⟨s1, s', hrun1, hrun, hwritten⟩ := replace_written h hnodes rfl hin hfuel1 hist
      exact ⟨s', by rw [hrun1, bind_some, hrun], hwritten⟩
    rw [if_neg hin]
    obtain ⟨s', hrun, hwritten⟩ := replace_split h hnodes rfl
      (Nat.lt_of_not_le hin) hfuel2 hist hheap
    refine ⟨s', ?_, hwritten⟩
    rw [segment_stop] at hin
    rw [add32_eq h.end_lt, sub32_eq (by omega), hrun]
    rfl

lemma FragList.last_stop (h : FragList s g (l ++ [x]) stop) : (segment s).stop x = stop :=
  h.shows.stop_eq

lemma jffs2AddFragToFragtree_spec {d : FullDnode} (h : Ready s g l stop p fn ofs size)
    (hnodes : NodesOk s added (p :: l)) (hd : s.nodes fn = some d)
    (hofs : d.ofs = ofs) (hm : Fresh m (p :: l)) (hfuel : l.length + 2 < fuel) :
    ∃ s', jffs2AddFragToFragtree fuel s p (some m) = some (0, s') ∧
      Written s' added (overwrite g ofs size fn) p ⟨some fn, size, ofs⟩ := by
  have hlen : l.length < fuel := by omega
  have hfuel1 : l.length + 1 < fuel := by omega
  unfold jffs2AddFragToFragtree
  simp only [h.frags, bind_eq_bind, bind_some, hd, hofs]
  rcases jffs2LookupNodeFrag_spec h.list ofs hlen with
    ⟨x, l1, l2, hrun, rfl, hlo, hhi⟩ | ⟨hrun, hstop⟩
  · have hxl : x ∈ l1 ++ x :: l2 := by simp
    rw [hrun, bind_some, if_neg (h.list.tree.isAddr hxl).1,
      h.list.frags_eq hxl, bind_some, h.list.end_eq hxl, if_neg (Nat.not_le_of_lt hhi)]
    exact overlappingNode_spec h hnodes hlo hhi hm hfuel
  rw [hrun, bind_some]
  rcases eq_nil_or_concat l with rfl | ⟨l1, x, rfl⟩
  · obtain rfl := Segment.shows_nil.mp h.list.shows
    have hnull : addr ([] : List (Word a)).getLast? = 0 := rfl
    rw [if_pos hnull]
    exact noOverlappingNode_spec h hnodes hd hofs hstop hm hfuel1
  rw [concat_eq_append] at *
  have hxl : x ∈ l1 ++ [x] := by simp
  have hlast : x = addr (l1 ++ [x]).getLast? := by
    rw [List.getLast?_concat, addr_some]
  rw [← hlast, if_neg (h.list.tree.isAddr hxl).1,
    h.list.frags_eq hxl, bind_some, h.list.end_eq hxl, h.list.last_stop, if_pos hstop]
  split
  · -- the last fragment ends in the page the new one starts in
    obtain ⟨raw1, raw2, hraw1, hraw2, hnodes1⟩ := markTwoNormal_spec
      hnodes (mem_cons_of_mem p hxl) (mem_cons_self (a := p))
    rw [h.frag_eq] at hraw2
    rw [hraw1, bind_some, hraw2, bind_some, hlast]
    exact noOverlappingNode_spec (h.setRaw raw2) hnodes1 hd hofs hstop hm hfuel1
  · rw [hlast]
    exact noOverlappingNode_spec h hnodes hd hofs hstop hm hfuel1

end

-- == marks

section

variable {s : Inode a} {added : Nat → Prop} {g : Nat → Option Nat}
  {l : List (Word a)} {stop fn ofs size fuel : Nat} {p q : Word a}

lemma FileOk.setRaw {raw : Nat → RefFlags} (h : FileOk s added g l stop)
    (hnodes : NodesOk { s with raw := raw } added l) :
    FileOk { s with raw := raw } added g l stop :=
  ⟨⟨h.list.tree, h.list.shows, h.list.bound⟩, hnodes, h.beyond⟩

lemma markNeighbour_spec (h : FileOk s added g l stop) (hp : p ∈ l)
    (hq : q ∈ l) (hfn : (s.frag p).node = some fn) :
    ∃ raw, markNeighbour s fn q = some { s with raw := raw } ∧
      FileOk { s with raw := raw } added g l stop := by
  obtain ⟨raw1, raw2, hraw1, hraw2, hnodes⟩ := markTwoNormal_spec h.nodes hp hq
  rw [hfn] at hraw1
  refine ⟨raw2, ?_, h.setRaw hnodes⟩
  simp only [markNeighbour, hraw1, bind_eq_bind, bind_some, h.list.frags_eq hq, hraw2]

lemma markPrev_spec (h : Written s added g p ⟨some fn, size, ofs⟩) (hfuel : 2 ^ 32 ≤ fuel) :
    ∃ s', markPrev fuel s fn p ⟨some fn, size, ofs⟩ = some s' ∧
      Written s' added g p ⟨some fn, size, ofs⟩ := by
  obtain ⟨l1, l2, stop, h, hfrag⟩ := h
  have hlen := h.list.length_lt
  unfold markPrev
  by_cases hpage : ofs % pageCacheSize = 0
  · exact ⟨s, if_neg (not_not.mpr hpage), l1, l2, stop, h, hfrag⟩
  rw [if_pos hpage, (h.list.tree.walks (lt_of_lt_of_le hlen hfuel)).prev
    l1 p l2 rfl, bind_eq_bind, bind_some]
  have hleft := h.list.around.1
  rw [hfrag] at hleft
  -- a fragment that starts after 0 has one before it
  rcases eq_nil_or_concat l1 with rfl | ⟨l3, q, rfl⟩
  · obtain rfl := Segment.shows_nil.mp hleft
    exact absurd rfl hpage
  rw [concat_eq_append] at *
  obtain ⟨raw, hrun, hfile⟩ := markNeighbour_spec h (p := p) (q := q)
    (by simp) (by simp) (by rw [hfrag])
  rw [List.getLast?_concat, addr_some]
  exact ⟨_, hrun, l3 ++ [q], l2, stop, hfile, hfrag⟩

lemma markNext_spec (h : Written s added g p ⟨some fn, size, ofs⟩) (hfuel : 2 ^ 32 ≤ fuel) :
    ∃ s', markNext fuel s fn p ⟨some fn, size, ofs⟩ = some s' ∧
      Written s' added g p ⟨some fn, size, ofs⟩ := by
  obtain ⟨l1, l2, stop, h, hfrag⟩ := h
  have hlen := h.list.length_lt
  unfold markNext
  by_cases hpage : add32 ofs size % pageCacheSize = 0
  · exact ⟨s, if_neg (not_not.mpr hpage), l1, l2, stop, h, hfrag⟩
  rw [if_pos hpage, (h.list.tree.walks (lt_of_lt_of_le hlen hfuel)).next
    l1 p l2 rfl, bind_eq_bind, bind_some]
  cases l2 with
  | nil => exact ⟨s, if_pos rfl, l1, [], stop, h, hfrag⟩
  | cons q l2 =>
    have hq : q ∈ l1 ++ p :: q :: l2 := by simp
    obtain ⟨raw, hrun, hfile⟩ := markNeighbour_spec h (p := p) (by simp) hq (by rw [hfrag])
    rw [List.head?_cons, addr_some, if_neg (h.list.tree.isAddr hq).1]
    exact ⟨_, hrun, l1, q :: l2, stop, hfile, hfrag⟩

end

-- == the call

section

variable {s : Inode a} {added : Nat → Prop} {g : Nat → Option Nat}
  {l : List (Word a)} {stop fn fuel : Nat} {d : FullDnode} {m1 m2 : Chunk a}

/-- A new node with its first fragment, which is not in the tree yet. -/
def firstFrag (s : Inode a) (m : Chunk a) (fn : Nat) (d : FullDnode) : Inode a :=
  { withFrag s m ⟨some fn, d.size, d.ofs⟩ with
    nodes := update s.nodes fn (some { d with frags := 1 }) }

lemma frag_firstFrag_self : (firstFrag s m1 fn d).frag m1.addr
    = ⟨some fn, d.size, d.ofs⟩ := frag_withFrag_self

lemma frag_firstFrag_ne {q : Word a} (h : q ≠ m1.addr) :
    (firstFrag s m1 fn d).frag q = s.frag q := frag_withFrag_ne h

lemma nodesOk_first (h : NodesOk s added l) (hm : m1.addr ∉ l)
    (hnew : ¬ added fn) (hraw : s.raw fn ≠ .obsolete) :
    NodesOk (firstFrag s m1 fn d) (fun n => n = fn ∨ added n) (m1.addr :: l) := by
  have hnone : refCount s l fn = 0 := by
    by_contra hpos
    exact hnew (h.live fn (Nat.pos_of_ne_zero hpos)).1
  have hkeep : ∀ x ∈ l, ((firstFrag s m1 fn d).frag x).node = (s.frag x).node := by
    intro x hx
    have hxm : x ≠ m1.addr := fun e => hm (e ▸ hx)
    rw [frag_firstFrag_ne hxm]
  have hcount : ∀ n, refCount (firstFrag s m1 fn d) (m1.addr :: l) n
      = refCount s l n + if fn = n then 1 else 0 := by
    intro n
    rw [refCount_cons, refCount_congr hkeep, frag_firstFrag_self]
    simp only [Option.some.injEq]
  refine ⟨fun n hn => ?_, fun n hadd hn => ?_⟩
  · rw [hcount] at hn ⊢
    show (n = fn ∨ added n) ∧ s.raw n ≠ _ ∧ ∃ d', update s.nodes fn _ n = some d' ∧ _
    by_cases hnf : n = fn
    · subst hnf
      refine ⟨Or.inl rfl, hraw, _, update_self .., ?_⟩
      rw [if_pos rfl, hnone]
    · rw [if_neg (Ne.symm hnf), add_zero] at hn ⊢
      rw [update_of_ne hnf]
      obtain ⟨hadd, hlive⟩ := h.live n hn
      exact ⟨Or.inr hadd, hlive⟩
  · rw [hcount] at hn
    obtain ⟨hn, hzero⟩ := Nat.add_eq_zero_iff.mp hn
    have hnf : n ≠ fn := by
      rintro rfl
      rw [if_pos rfl] at hzero
      exact absurd hzero Nat.one_ne_zero
    show s.raw n = _ ∧ update s.nodes fn _ n = none
    rw [update_of_ne hnf]
    exact h.dead n (hadd.resolve_left hnf) hn

lemma jffs2AddFullDnodeToInode_spec (h : FileOk s added g l stop)
    (hd : s.nodes fn = some d) (hraw : s.raw fn ≠ .obsolete)
    (hnew : ¬ added fn) (hsize : 0 < d.size) (hend : d.ofs + d.size < 2 ^ 32) (hm1 : Fresh m1 l)
    (hm2 : Fresh m2 (m1.addr :: l)) (hfuel : 2 ^ 32 + 2 ≤ fuel) :
    ∃ s' l' stop', jffs2AddFullDnodeToInode fuel s fn (some m1) (some m2) = some (0, s') ∧
      FileOk s' (fun n => n = fn ∨ added n) (overwrite g d.ofs d.size fn) l' stop' := by
  have hlen := h.list.length_lt
  have htree : IsTree (firstFrag s m1 fn d).fragtree l :=
    isTree_withFrag (f := ⟨some fn, d.size, d.ofs⟩) h.list.tree hm1.new
  have hshows : (segment (firstFrag s m1 fn d)).Shows g 0 l stop :=
    shows_congr h.list.shows fun y hy =>
      frag_firstFrag_ne (fun e => hm1.new (e ▸ hy))
  have hready : Ready (firstFrag s m1 fn d) g l stop m1.addr fn d.ofs
      d.size :=
    { list := ⟨htree, hshows, h.list.bound⟩
      beyond := h.beyond
      addr := hm1.addr
      new := hm1.new
      frags := frags_withFrag_self
      heap := ⟨m1.junk, heap_write_self s.fragtree m1.addr m1.junk⟩
      size_pos := hsize
      end_lt := hend }
  obtain ⟨s2, hrun, hwritten⟩ := jffs2AddFragToFragtree_spec (m := m2)
    hready (nodesOk_first h.nodes hm1.new hnew hraw)
    (update_self ..) rfl hm2 (show l.length + 2 < fuel by omega)
  have hwalk : 2 ^ 32 ≤ fuel := by omega
  obtain ⟨s3, hprev, hwritten3⟩ := markPrev_spec hwritten hwalk
  obtain ⟨s4, hnext, l1, l2, stop', hfile, -⟩ := markNext_spec hwritten3 hwalk
  refine ⟨s4, _, stop', ?_, hfile⟩
  have hfrag : s2.frags m1.addr = some ⟨some fn, d.size, d.ofs⟩ := by
    obtain ⟨l1, l2, stop, hfile, hfrag⟩ := hwritten
    rw [hfile.list.frags_eq (p := m1.addr) (by simp), hfrag]
  unfold jffs2AddFullDnodeToInode
  simp only [hd, bind_eq_bind, bind_some, if_neg (ne_of_gt hsize), newFragment_some]
  refine (if_neg hm1.addr.1).trans ?_
  refine (congrArg (Option.bind · _) hrun).trans ?_
  simp only [bind_some, ne_eq, not_true_eq_false, if_false, hfrag, hprev, hnext]
  rfl

end

variable {a : WordSize}

def cut (g : Nat → Option Nat) (size : Nat) : Nat → Option Nat :=
  fun i => if size ≤ i then none else g i

/-- The fragments `keep` end at `b`; the fragments `drop` lie beyond the cut
at `size`. -/
structure Cutting (s : Inode a) (added : Nat → Prop) (g : Nat → Option Nat)
    (keep drop : List (Word a)) (size b : Nat) : Prop where
  tree : IsTree s.fragtree (keep ++ drop)
  nodes : NodesOk s added (keep ++ drop)
  shows : (segment s).Shows g 0 keep b
  beyond : ∀ x ∈ drop, size ≤ (s.frag x).ofs ∧ 0 < (s.frag x).size

section

variable {s : Inode a} {added : Nat → Prop} {g : Nat → Option Nat}
  {l keep drop : List (Word a)} {stop size b fuel : Nat}

lemma truncateLoop_spec (turns : Nat) : ∀ {s : Inode a}
    {drop : List (Word a)}, Cutting s added g keep drop size b →
    drop.length < turns → (keep ++ drop).length + 1 < fuel →
    ∃ s', truncateLoop fuel size turns s (addr drop.head?) = some s' ∧
      Cutting s' added g keep [] size b := by
  induction turns with
  | zero => intro s drop _ hturns; omega
  | succ turns ih =>
    intro s drop h hturns hfuel
    have hlen : (keep ++ drop).length < fuel := by omega
    unfold truncateLoop
    cases drop with
    | nil => exact ⟨s, if_pos rfl, h⟩
    | cons x drop =>
      have hxl : x ∈ keep ++ x :: drop := by simp
      obtain ⟨hofs, hsize⟩ := h.beyond x mem_cons_self
      have hx : s.frags x = some (s.frag x) := frags_eq hsize
      have hnd := h.tree.nodup
      rw [perm_middle.nodup_iff, nodup_cons, mem_append, not_or] at hnd
      obtain ⟨s1, s2, hs1, hs2, htree, hnodes, hfrag⟩ := removeFrag_spec h.tree h.nodes hx hfuel
      rw [List.head?_cons, addr_some, if_neg (h.tree.isAddr hxl).1]
      simp only [hx, bind_eq_bind, bind_some,
        (h.tree.walks hlen).next keep x drop rfl, if_pos hofs, hs1, hs2]
      have hcut : Cutting s2 added g keep drop size b :=
        { tree := htree
          nodes := hnodes
          shows := shows_congr h.shows fun y hy =>
            hfrag y (fun e => hnd.1.1 (e ▸ hy))
          beyond := fun y hy => by
            rw [hfrag y (fun e => hnd.1.2 (e ▸ hy))]
            exact h.beyond y (mem_cons_of_mem x hy) }
      simp only [length_append, length_cons] at hfuel hturns
      exact ih hcut (by omega) (by rw [length_append]; omega)

lemma cutting_shrunk {l1 l2 : List (Word a)} {x : Word a}
    (h : FileOk s added g (l1 ++ x :: l2) stop)
    (hlo : (s.frag x).ofs < size) (hhi : size < (segment s).stop x) :
    Cutting (shrunk s x size) added g (l1 ++ [x]) l2 size size := by
  obtain ⟨hleft, hright⟩ := h.list.shows_shrunk hlo hhi
  have hjoin : (l1 ++ [x]) ++ l2 = l1 ++ x :: l2 := by simp
  refine ⟨by rw [hjoin]; exact h.list.tree,
    by rw [hjoin]; exact h.nodes.setFrag rfl, hleft, fun y hy => ?_⟩
  obtain ⟨hofs, hpos, -⟩ := hright.mem_range hy
  exact ⟨hhi.le.trans hofs, hpos⟩

lemma truncateFrag_spec (h : FileOk s added g l stop) (size : Nat) (hfuel : l.length < fuel) :
    ∃ frag s' keep drop, jffs2LookupNodeFrag fuel s size = some frag ∧
      truncateFrag fuel s frag size = some (addr drop.head?, s') ∧
      Cutting s' added g keep drop size (min stop size) ∧
      keep.length + drop.length = l.length := by
  rcases jffs2LookupNodeFrag_spec h.list size hfuel with
    ⟨x, l1, l2, hrun, rfl, hlo, hhi⟩ | ⟨hrun, hstop⟩
  · have hxl : x ∈ l1 ++ x :: l2 := by simp
    have hle := (h.list.shows.mem_range hxl).2.2
    have hmin : min stop size = size := by omega
    rw [segment_ofs] at hlo
    simp only [hrun, Option.some.injEq, hmin, exists_and_left,
      exists_eq_left', truncateFrag, if_neg (h.list.tree.isAddr hxl).1,
      h.list.frags_eq hxl, bind_eq_bind, bind_some, h.list.end_eq hxl]
    by_cases hofs : (s.frag x).ofs = size
    · -- it starts at the cut, and is the first to go
      obtain ⟨hleft, hright, -⟩ := h.list.around
      rw [if_neg (not_not.mpr hofs)]
      refine ⟨s, l1, x :: l2, rfl, ⟨h.list.tree, h.nodes, hofs ▸ hleft, fun y hy => ?_⟩, by simp⟩
      rcases mem_cons.mp hy with rfl | hy
      · exact ⟨le_of_eq hofs.symm, (h.list.shows.mem_range hxl).2.1⟩
      · have hrange := hright.mem_range hy
        rw [segment_ofs, segment_size] at hrange
        exact ⟨by omega, hrange.2.1⟩
    · rw [if_pos hofs, if_pos hhi, sub32_eq hlo]
      have hlt : (s.frag x).ofs < size := by omega
      refine ⟨shrunk s x size, l1 ++ [x], l2, ?_, cutting_shrunk h hlt hhi, by simp; omega⟩
      have hnext : rbNext fuel (shrunk s x size).fragtree x = some (addr l2.head?) :=
        (h.list.tree.walks hfuel).next l1 x l2 rfl
      exact congrArg (Option.bind · _) hnext
  · have hmin : min stop size = stop := by omega
    have hcut : Cutting s added g l [] size (min stop size) := by
      rw [hmin]
      refine ⟨?_, ?_, h.list.shows, fun x hx => by cases hx⟩
      · rw [append_nil]
        exact h.list.tree
      · rw [append_nil]
        exact h.nodes
    refine ⟨_, s, l, [], hrun, ?_, hcut, by simp⟩
    rcases eq_nil_or_concat l with rfl | ⟨l1, x, rfl⟩
    · exact if_pos rfl
    rw [concat_eq_append] at *
    have hxl : x ∈ l1 ++ [x] := by simp
    have hlast := h.list.last_stop
    have hrange := (h.list.shows.mem_range hxl).2.1
    rw [segment_stop] at hlast
    rw [segment_size] at hrange
    have hnext := (h.list.tree.walks hfuel).next l1 x [] rfl
    have hofs : (s.frag x).ofs ≠ size := by omega
    have hend : ¬ size < (segment s).stop x := by
      rw [segment_stop]
      omega
    rw [List.getLast?_concat, addr_some]
    simp only [truncateFrag, if_neg (h.list.tree.isAddr hxl).1,
      h.list.frags_eq hxl, bind_eq_bind, bind_some,
      h.list.end_eq hxl, if_pos hofs, gt_iff_lt, if_neg hend, hnext]
    rfl

lemma Cutting.fileOk (h : Cutting s added g keep [] size (min stop size))
    (hbeyond : ∀ i, stop ≤ i → g i = none) (hbound : stop < 2 ^ 32) :
    FileOk s added (cut g size) keep (min stop size) := by
  have htree := h.tree
  have hnodes := h.nodes
  rw [append_nil] at htree hnodes
  refine ⟨⟨htree, h.shows.congr fun i _ hi => ?_, by omega⟩, hnodes, fun i hi => ?_⟩
  · rw [cut, if_neg (by omega)]
  · unfold cut
    split
    · rfl
    · exact hbeyond i (by omega)

lemma jffs2TruncateFragtree_spec (h : FileOk s added g l stop)
    (size : Nat) (hfuel : 2 ^ 32 + 2 ≤ fuel) :
    ∃ s' l', jffs2TruncateFragtree fuel s size = some (min stop size, s') ∧
      FileOk s' added (cut g size) l' (min stop size) := by
  have hlen := h.list.length_lt
  obtain ⟨frag, s1, keep, drop, hlookup, hfrag, hcut, hkeep⟩ :=
    truncateFrag_spec h size (lt_of_lt_of_le hlen (by omega : 2 ^ 32 ≤ fuel))
  obtain ⟨s2, hloop, hcut2⟩ := truncateLoop_spec fuel hcut (by omega)
    (show (keep ++ drop).length + 1 < fuel by
      rw [length_append]; omega)
  have hfile := hcut2.fileOk h.beyond h.list.bound
  have hlast := (hfile.list.tree.walks (show keep.length < fuel by omega)).last
  unfold jffs2TruncateFragtree
  simp only [hlookup, hfrag, hloop, hlast, bind_eq_bind, bind_some]
  by_cases hzero : size = 0
  · rw [if_pos hzero]
    exact ⟨s2, keep, by rw [hzero, Nat.min_zero]; rfl, hfile⟩
  rw [if_neg hzero]
  rcases eq_nil_or_concat keep with rfl | ⟨k, x, rfl⟩
  · -- an empty file stays empty
    have hmin := Segment.shows_nil.mp hfile.list.shows
    exact ⟨s2, [], by rw [← hmin]; rfl, hfile⟩
  rw [concat_eq_append] at *
  have hxl : x ∈ k ++ [x] := by simp
  rw [List.getLast?_concat, addr_some, if_neg (hfile.list.tree.isAddr hxl).1]
  simp only [hfile.list.frags_eq hxl, bind_some, hfile.list.end_eq hxl, hfile.list.last_stop]
  by_cases hshort : min stop size < size
  · rw [if_pos hshort]
    exact ⟨s2, _, rfl, hfile⟩
  rw [if_neg hshort]
  have hmin : min stop size = size := by omega
  cases hn : (s2.frag x).node with
  | none => exact ⟨s2, _, by rw [hmin]; rfl, hfile⟩
  | some n =>
    have hpos := refCount_pos hxl hn
    obtain ⟨-, -, d, hd, -⟩ := hfile.nodes.live n hpos
    by_cases hpage : (s2.frag x).ofs % pageCacheSize = 0
    · refine ⟨{ s2 with
          raw := Function.update s2.raw n .pristine }, _, ?_,
        hfile.setRaw (hfile.nodes.mark hpos (by simp))⟩
      simp only [if_pos hpage, hd, bind_some, hmin]
      rfl
    · refine ⟨s2, _, ?_, hfile⟩
      simp only [if_neg hpage, hmin]
      rfl

end

end BoardStack.Jffs2
