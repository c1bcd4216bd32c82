/-
What `jffs2_add_frag_to_fragtree` does once the new fragment is in the tree.

`NodesOk s added l` relates the nodes to the fragments `l` that refer to
them, those in the tree and those about to be put there: a node with
fragments is there, not obsolete, and counts them; a node that was added and
has none left is obsolete and freed. Marking a reference normal keeps this
for nodes that have fragments, and only for those.

The fragments after the new one may start before it ends. `Overlap` is the state of
that moment: up to the end of the new fragment the tree shows the new file,
from some point before that end on it shows the old one. The loop removes
the fragments that are covered, and the first one that is not is cut.
-/
import BoardStack.Jffs2.Proofs.Search

namespace BoardStack.Jffs2

open Base Rbtree Function List Option

variable {a : WordSize}

def refCount (s : Inode a) (l : List (Word a)) (n : Nat) : Nat :=
  (l.map fun p => (s.frag p).node).count (some n)

structure NodesOk (s : Inode a) (added : Nat → Prop) (l : List (Word a)) : Prop where
  live : ∀ n, 0 < refCount s l n → added n ∧ s.raw n ≠ .obsolete ∧
    ∃ d, s.nodes n = some d ∧ d.frags = refCount s l n
  dead : ∀ n, added n → refCount s l n = 0 → s.raw n = .obsolete ∧ s.nodes n = none

section

variable {s s' : Inode a} {l l' : List (Word a)} {p : Word a} {n : Nat}

lemma refCount_cons : refCount s (p :: l) n
    = refCount s l n + if (s.frag p).node = some n then 1 else 0 := by
  unfold refCount
  rw [map_cons, count_cons]
  simp only [beq_iff_eq]

lemma refCount_le_length : refCount s l n ≤ l.length := by
  exact count_le_length.trans_eq (length_map _)

lemma refCount_perm (h : l.Perm l') : refCount s l n = refCount s l' n := (h.map _).count_eq _

lemma refCount_congr (h : ∀ x ∈ l, (s'.frag x).node = (s.frag x).node) :
    refCount s' l n = refCount s l n := by
  unfold refCount
  rw [map_congr_left h]

lemma refCount_pos (hp : p ∈ l) (hn : (s.frag p).node = some n) : 0 < refCount s l n :=
  count_pos_iff.mpr (mem_map.mpr ⟨p, hp, hn⟩)

end

section

variable {s s' : Inode a} {added : Nat → Prop} {l l' : List (Word a)} {p : Word a} {n : Nat}

section

variable (h : NodesOk s added l)

include h

lemma NodesOk.congr (hperm : l'.Perm l) (hnode : ∀ x ∈ l, (s'.frag x).node = (s.frag x).node)
    (hnodes : s'.nodes = s.nodes) (hraw : s'.raw = s.raw) :
    NodesOk s' added l' := by
  have hcount : ∀ n, refCount s' l' n = refCount s l n :=
    fun n => (refCount_perm hperm).trans (refCount_congr hnode)
  refine ⟨fun n hn => ?_, fun n hadd hn => ?_⟩
  · rw [hcount] at hn ⊢
    rw [hnodes, hraw]
    exact h.live n hn
  · rw [hcount] at hn
    rw [hnodes, hraw]
    exact h.dead n hadd hn

lemma NodesOk.mark (hn : 0 < refCount s l n) {flag : RefFlags} (hflag : flag ≠ .obsolete) :
    NodesOk { s with raw := update s.raw n flag } added l := by
  refine ⟨fun m hm => ?_, fun m hadd hm => ?_⟩
  · obtain ⟨hadd, hraw, hnode⟩ := h.live m hm
    refine ⟨hadd, ?_, hnode⟩
    show update s.raw n flag m ≠ _
    by_cases hmn : m = n
    · rwa [hmn, update_self]
    · rwa [update_of_ne hmn]
  have hmn : m ≠ n := by
    rintro rfl
    exact absurd hm (by show refCount s l m ≠ 0; omega)
  obtain ⟨hraw, hnode⟩ := h.dead m hadd hm
  refine ⟨?_, hnode⟩
  show update s.raw n flag m = _
  rwa [update_of_ne hmn]

lemma markRefNormal_spec (hn : 0 < refCount s l n) :
    ∃ raw, markRefNormal s (some n) = some { s with raw := raw } ∧
      NodesOk { s with raw := raw } added l := by
  obtain ⟨-, -, d, hd, -⟩ := h.live n hn
  refine ⟨update s.raw n .normal, ?_, h.mark hn (by simp)⟩
  rw [markRefNormal, hd, map_some]

lemma markFragNormal_spec (hp : p ∈ l) :
    ∃ raw, markRefNormal s (s.frag p).node = some { s with raw := raw } ∧
      NodesOk { s with raw := raw } added l := by
  cases hn : (s.frag p).node with
  | none => exact ⟨s.raw, rfl, h⟩
  | some n => exact markRefNormal_spec h (refCount_pos hp hn)

lemma markTwoNormal_spec {q : Word a} (hp : p ∈ l) (hq : q ∈ l) :
    ∃ raw1 raw2, markRefNormal s (s.frag p).node = some { s with raw := raw1 } ∧
      markRefNormal { s with raw := raw1 } (s.frag q).node = some { s with raw := raw2 } ∧
      NodesOk { s with raw := raw2 } added l := by
  obtain ⟨raw1, hraw1, h1⟩ := markFragNormal_spec h hp
  obtain ⟨raw2, hraw2, h2⟩ := markFragNormal_spec h1 hq
  exact ⟨raw1, raw2, hraw1, hraw2, h2⟩

end

lemma nodesOk_hole (hp : (s.frag p).node = none) :
    NodesOk s added (p :: l) ↔ NodesOk s added l := by
  have hcount : ∀ n, refCount s (p :: l) n = refCount s l n := by
    intro n
    rw [refCount_cons, hp, if_neg (by simp), add_zero]
  constructor <;> intro h
  all_goals exact ⟨fun n hn => hcount n ▸ h.live n (hcount n ▸ hn),
    fun n hadd hn => h.dead n hadd (hcount n ▸ hn)⟩

lemma shareNode_spec {q : Word a} (h : NodesOk s added l) (hp : p ∈ l)
    (hq : (s.frag q).node = (s.frag p).node) (hlen : l.length + 1 < 2 ^ 32) :
    ∃ nodes, shareNode s (s.frag p).node = some { s with nodes := nodes } ∧
      NodesOk { s with nodes := nodes } added (q :: l) := by
  cases hn : (s.frag p).node with
  | none =>
    exact ⟨s.nodes, rfl, (nodesOk_hole (hq.trans hn)).mpr h⟩
  | some n =>
    have hpos := refCount_pos hp hn
    obtain ⟨hadd, hraw, d, hd, hfrags⟩ := h.live n hpos
    have hle : refCount s l n ≤ l.length := refCount_le_length
    have hcount : ∀ m, m ≠ n → refCount s (q :: l) m = refCount s l m := by
      intro m hm
      rw [refCount_cons, hq, hn, if_neg (fun e => hm (Option.some.inj e).symm), add_zero]
    refine ⟨update s.nodes n (some { d with frags := add32 d.frags 1 }), ?_, fun m hm => ?_,
      fun m hadd' hm => ?_⟩
    · rw [shareNode, hd, map_some]
    · have hm : 0 < refCount s (q :: l) m := hm
      show added m ∧ s.raw m ≠ _ ∧ ∃ d', update s.nodes n _ m
        = some d' ∧ d'.frags = refCount s (q :: l) m
      by_cases hmn : m = n
      · subst hmn
        refine ⟨hadd, hraw, _, update_self .., ?_⟩
        show add32 d.frags 1 = _
        rw [add32_eq (by omega), hfrags, refCount_cons, if_pos (hq.trans hn)]
      · rw [hcount m hmn] at hm ⊢
        rw [update_of_ne hmn]
        exact h.live m hm
    · have hm : refCount s (q :: l) m = 0 := hm
      have hmn : m ≠ n := by
        rintro rfl
        rw [refCount_cons] at hm
        exact absurd (Nat.add_eq_zero_iff.mp hm).1 (ne_of_gt hpos)
      rw [hcount m hmn] at hm
      show s.raw m = _ ∧ update s.nodes n _ m = none
      rw [update_of_ne hmn]
      exact h.dead m hadd' hm

lemma frag_free_ne (s : Inode a) {p q : Word a} (h : q ≠ p) :
    (jffs2FreeNodeFrag s p).frag q = s.frag q := by
  show ((update s.frags p none) q).getD _ = _
  rw [update_of_ne h]
  rfl

lemma nodesOk_free {nodes : Nat → Option FullDnode}
    {raw : Nat → RefFlags} (h : NodesOk s added (p :: l)) (hpl : p ∉ l)
    (hn : (s.frag p).node = some n) (hnodes : ∀ m, m ≠ n → nodes m = s.nodes m)
    (hraw : ∀ m, m ≠ n → raw m = s.raw m)
    (hdead : refCount s l n = 0 → raw n = .obsolete ∧ nodes n = none)
    (hlive : 0 < refCount s l n → raw n ≠ .obsolete ∧
      ∃ d, nodes n = some d ∧ d.frags = refCount s l n) :
    NodesOk (jffs2FreeNodeFrag { s with nodes := nodes, raw := raw } p) added l := by
  have hcount : ∀ m, refCount (jffs2FreeNodeFrag { s with nodes := nodes, raw := raw } p) l m
        = refCount s l m := by
    intro m
    refine refCount_congr fun x hx => ?_
    have hxp : x ≠ p := fun e => hpl (e ▸ hx)
    rw [frag_free_ne _ hxp]
    rfl
  have hother : ∀ m, m ≠ n → refCount s (p :: l) m = refCount s l m := by
    intro m hm
    rw [refCount_cons, hn, if_neg (fun e => hm (Option.some.inj e).symm), add_zero]
  have hone : 0 < refCount s (p :: l) n := refCount_pos mem_cons_self hn
  refine ⟨fun m hm => ?_, fun m hadd hm => ?_⟩
  · rw [hcount] at hm ⊢
    show added m ∧ raw m ≠ _ ∧ ∃ d, nodes m = some d ∧ _
    by_cases hmn : m = n
    · subst hmn
      exact ⟨(h.live m hone).1, hlive hm⟩
    · rw [hraw m hmn, hnodes m hmn, ← hother m hmn]
      exact h.live m (by rwa [hother m hmn])
  · rw [hcount] at hm
    show raw m = _ ∧ nodes m = none
    by_cases hmn : m = n
    · subst hmn
      exact hdead hm
    · rw [hraw m hmn, hnodes m hmn]
      exact h.dead m hadd (by rwa [hother m hmn])

/-- `jffs2_obsolete_node_frag`: one fragment less. -/
lemma jffs2ObsoleteNodeFrag_spec (h : NodesOk s added (p :: l))
    (hp : s.frags p = some (s.frag p)) (hpl : p ∉ l) :
    ∃ nodes raw, jffs2ObsoleteNodeFrag s p
        = some (jffs2FreeNodeFrag { s with nodes := nodes, raw := raw } p) ∧
      NodesOk (jffs2FreeNodeFrag { s with nodes := nodes, raw := raw } p) added l := by
  unfold jffs2ObsoleteNodeFrag
  rw [hp, bind_eq_bind, bind_some]
  cases hn : (s.frag p).node with
  | none =>
    refine ⟨s.nodes, s.raw, rfl, ((nodesOk_hole hn).mp h).congr (.refl l) (fun x hx => ?_) rfl rfl⟩
    have hxp : x ≠ p := fun e => hpl (e ▸ hx)
    rw [frag_free_ne _ hxp]
  | some n =>
    have hcount : refCount s (p :: l) n = refCount s l n + 1 := by rw [refCount_cons, if_pos hn]
    obtain ⟨-, -, d, hd, hfrags⟩ := h.live n (by omega)
    have hsub : sub32 d.frags 1 = refCount s l n := by
      rw [sub32_eq (by omega), hfrags, hcount, Nat.add_sub_cancel]
    simp only [hd, bind_eq_bind, bind_some]
    generalize sub32 d.frags 1 = k at hsub ⊢
    subst hsub
    by_cases hzero : refCount s l n = 0
    · refine ⟨update s.nodes n none, update s.raw n .obsolete, ?_,
        nodesOk_free h hpl hn ?_ ?_ ?_ ?_⟩
      · rw [if_pos hzero]
      · exact fun m hm => update_of_ne hm _ _
      · exact fun m hm => update_of_ne hm _ _
      · exact fun _ => ⟨update_self .., update_self ..⟩
      · exact fun hpos => absurd hzero (by omega)
    refine ⟨update s.nodes n (some { d with frags := refCount s l n }),
      update s.raw n .normal, ?_, nodesOk_free h hpl hn ?_ ?_ ?_ ?_⟩
    · rw [if_neg hzero]
      simp only [markRefNormal, update_self, map_some, bind_some]
    · exact fun m hm => update_of_ne hm _ _
    · exact fun m hm => update_of_ne hm _ _
    · exact fun hz => absurd hz hzero
    · refine fun _ => ⟨?_, _, update_self .., rfl⟩
      simp

end

variable {a : WordSize}

-- == fragments

section

variable {s s' : Inode a} {p q : Word a} {l : List (Word a)}

lemma shows_congr {g : Nat → Option Nat} {i j : Nat} (h : (segment s).Shows g i l j)
    (hfrag : ∀ x ∈ l, s'.frag x = s.frag x) : (segment s').Shows g i l j :=
  h.congr_segment (fun x hx => by rw [segment_ofs, segment_ofs, hfrag x hx])
    (fun x hx => by rw [segment_size, segment_size, hfrag x hx])
    (fun x hx => by rw [segment_val, segment_val, hfrag x hx])

lemma frag_setFrag_self (s : Inode a) (p : Word a) (f : NodeFrag) : (s.setFrag p f).frag p = f := by
  show ((update s.frags p (some f)) p).getD _ = f
  rw [update_self]
  rfl

lemma frag_setFrag_ne (s : Inode a) (f : NodeFrag) (h : q ≠ p) :
    (s.setFrag p f).frag q = s.frag q := by
  show ((update s.frags p (some f)) q).getD _ = _
  rw [update_of_ne h]
  rfl

end

variable {l1 l2 : List (Word a)}

lemma erase_middle {x : Word a}
    (h : (l1 ++ x :: l2).Nodup) : (l1 ++ x :: l2).erase x = l1 ++ l2 := by
  rw [perm_middle.nodup_iff, nodup_cons, mem_append, not_or] at h
  rw [erase_append_right _ h.1.1, erase_cons_head]

/-- `rb_erase` and `jffs2_obsolete_node_frag`: a fragment leaves the tree. -/
lemma removeFrag_spec {s : Inode a} {added : Nat → Prop} {x : Word a} {fuel : Nat}
    (h : IsTree s.fragtree (l1 ++ x :: l2)) (hnodes : NodesOk s added (l1 ++ x :: l2))
    (hx : s.frags x = some (s.frag x)) (hfuel : (l1 ++ x :: l2).length + 1 < fuel) :
    ∃ s1 s', s.onTree (rbErase fuel s.fragtree x) = some s1 ∧ jffs2ObsoleteNodeFrag s1 x = some s' ∧
      IsTree s'.fragtree (l1 ++ l2) ∧ NodesOk s' added (l1 ++ l2) ∧
      ∀ y, y ≠ x → s'.frag y = s.frag y := by
  obtain ⟨tree, hrun, htree, -⟩ := h.erase hfuel (p := x) (by simp)
  rw [erase_middle h.nodup] at htree
  have hnd := h.nodup
  rw [perm_middle.nodup_iff, nodup_cons] at hnd
  have hnodes1 : NodesOk { s with fragtree := tree } added (x :: (l1 ++ l2)) :=
    hnodes.congr perm_middle.symm (fun _ _ => rfl) rfl rfl
  obtain ⟨nodes, raw, hobs, hnodes2⟩ := jffs2ObsoleteNodeFrag_spec hnodes1 hx hnd.1
  refine ⟨{ s with fragtree := tree }, _, ?_, hobs, ?_, hnodes2, ?_⟩
  · rw [Inode.onTree, hrun, map_some]
  · -- the memory that is freed is not in the tree
    refine htree.congr rfl fun q hq => ?_
    have hqx : q ≠ x := fun e => hnd.1 (e ▸ hq)
    exact update_of_ne hqx _ _
  · intro y hy
    rw [frag_free_ne _ hy]
    rfl

-- == overlap

/-- The new fragment `p` ends at `e`; from `b` on the fragments after it are
the old ones. -/
structure Overlap (s : Inode a) (added : Nat → Prop) (g g' : Nat → Option Nat)
    (l1 : List (Word a)) (p : Word a) (l2 : List (Word a))
    (b e stop : Nat) : Prop where
  tree : IsTree s.fragtree (l1 ++ p :: l2)
  left : (segment s).Shows g' 0 (l1 ++ [p]) e
  right : (segment s).Shows g b l2 stop
  le : b ≤ e
  same : ∀ i, e ≤ i → g' i = g i
  nodes : NodesOk s added (l1 ++ p :: l2)
  end_lt : e < 2 ^ 32
  stop_lt : stop < 2 ^ 32

section

variable {s : Inode a} {added : Nat → Prop} {g g' : Nat → Option Nat}
  {l1 l2 : List (Word a)} {p x : Word a} {b e stop fuel : Nat}

lemma Overlap.frags_new (h : Overlap s added g g' l1 p l2 b e stop) :
    s.frags p = some (s.frag p) ∧ add32 (s.frag p).ofs (s.frag p).size = e := by
  have hrange := h.left.mem_range (x := p) (by simp)
  have hstop := h.left.stop_eq
  have hlt := h.end_lt
  rw [segment_stop] at hstop
  refine ⟨Jffs2.frags_eq hrange.2.1, ?_⟩
  rw [add32_eq (by omega)]
  exact hstop

lemma Overlap.frags_old (h : Overlap s added g g' l1 p l2 b e stop)
    (hx : x ∈ l2) : s.frags x = some (s.frag x) ∧
      add32 (s.frag x).ofs (s.frag x).size = (segment s).stop x := by
  have hrange := h.right.mem_range hx
  have hlt := h.stop_lt
  refine ⟨Jffs2.frags_eq hrange.2.1, ?_⟩
  rw [segment_stop] at hrange ⊢
  exact add32_eq (by omega)

lemma obsoleteCovered_spec (turns : Nat) : ∀ {s : Inode a} {l2 : List (Word a)} {b : Nat},
    Overlap s added g g' l1 p l2 b e stop → l2.length < turns →
    (l1 ++ p :: l2).length + 1 < fuel →
    ∃ s' l3 b', obsoleteCovered fuel p turns s = some (addr l3.head?, s') ∧
      Overlap s' added g g' l1 p l3 b' e stop ∧
      s'.frag p = s.frag p ∧
      ∀ x, l3.head? = some x → e < (segment s').stop x := by
  induction turns with
  | zero => intro s l2 b _ hturns; omega
  | succ turns ih =>
    intro s l2 b h hturns hfuel
    have hlen : (l1 ++ p :: l2).length < fuel := by omega
    have hnext := (h.tree.walks hlen).next l1 p l2 rfl
    unfold obsoleteCovered
    rw [hnext, bind_eq_bind, bind_some]
    cases l2 with
    | nil => exact ⟨s, [], b, if_pos rfl, h, rfl, by simp⟩
    | cons x l2 =>
      have hxl : x ∈ l1 ++ p :: x :: l2 := by simp
      obtain ⟨hp, hpe⟩ := h.frags_new
      obtain ⟨hx, hxe⟩ := h.frags_old mem_cons_self
      rw [List.head?_cons, addr_some, if_neg (h.tree.isAddr hxl).1]
      simp only [bind_eq_bind, bind_some, hp, hx, hpe, hxe]
      by_cases hcov : (segment s).stop x ≤ e
      · rw [if_pos hcov]
        have hsplit : l1 ++ p :: x :: l2 = (l1 ++ [p]) ++ x :: l2 := by simp
        have hjoin : (l1 ++ [p]) ++ l2 = l1 ++ p :: l2 := by simp
        have hnd := h.tree.nodup
        rw [hsplit, perm_middle.nodup_iff, nodup_cons, mem_append, not_or] at hnd
        obtain ⟨s1, s2, hs1, hs2, htree, hnodes, hfrag⟩ :=
          removeFrag_spec (hsplit ▸ h.tree) (hsplit ▸ h.nodes) hx (hsplit ▸ hfuel)
        rw [hjoin] at htree hnodes
        obtain ⟨hofs, -, -, hrest⟩ := Segment.shows_cons.mp h.right
        have hov : Overlap s2 added g g' l1 p l2 (b + (segment s).size x) e stop :=
          { tree := htree
            left := shows_congr h.left fun y hy =>
              hfrag y (fun e => hnd.1.1 (e ▸ hy))
            right := shows_congr hrest fun y hy =>
              hfrag y (fun e => hnd.1.2 (e ▸ hy))
            le := by
              rw [segment_stop] at hcov
              rw [segment_ofs] at hofs
              rw [segment_size]
              omega
            same := h.same
            nodes := hnodes
            end_lt := h.end_lt
            stop_lt := h.stop_lt }
        simp only [length_append, length_cons] at hfuel hturns
        obtain ⟨s', l3, b', hrun, hov', hkeep, hhead⟩ := ih hov (by omega)
          (by simp only [length_append, length_cons]; omega)
        refine ⟨s', l3, b', ?_, hov', ?_, hhead⟩
        · rw [hs1, bind_some, hs2, bind_some, hrun]
        · rw [hkeep, hfrag p (fun e => hnd.1.1 (by simp [e]))]
      · rw [if_neg hcov]
        refine ⟨s, x :: l2, b, rfl, h, rfl, ?_⟩
        intro y hy
        obtain rfl : x = y := by simpa using hy
        omega

lemma NodesOk.setFrag (h : NodesOk s added l) {f : NodeFrag} (hf : f.node = (s.frag x).node) :
    NodesOk (s.setFrag x f) added l := by
  refine h.congr (.refl l) (fun y _ => ?_) rfl rfl
  by_cases hy : y = x
  · rw [hy, frag_setFrag_self, hf]
  · rw [frag_setFrag_ne s f hy]

/-- What is left of a fragment from `e` on, and the fragments after it. -/
lemma shows_remainder {s' : Inode a} {y : Word a} {f : NodeFrag}
    (hy : s'.frag y = ⟨f.node, f.ofs + f.size - e, e⟩) (hlo : f.ofs ≤ e) (hhi : e < f.ofs + f.size)
    (hval : ∀ i, f.ofs ≤ i → i < f.ofs + f.size → g i = f.node) (hsame : ∀ i, e ≤ i → g' i = g i)
    (hright : (segment s').Shows g (f.ofs + f.size) l2 stop) :
    (segment s').Shows g' e (y :: l2) stop := by
  have hsz : e + (f.ofs + f.size - e) = f.ofs + f.size := by omega
  refine Segment.shows_cons.mpr ⟨?_, ?_, fun i hi hi' => ?_, ?_⟩
  · rw [segment_ofs, hy]
  · rw [segment_size, hy]
    exact Nat.sub_pos_of_lt hhi
  · rw [segment_size, hy] at hi'
    rw [segment_val, hy, hsame i hi]
    exact hval i (by omega) (Nat.lt_of_lt_of_eq hi' hsz)
  · rw [segment_size, hy]
    show (segment s').Shows _ (e + (f.ofs + f.size - e)) _ _
    rw [hsz]
    exact hright.congr fun i hi _ => (hsame i (by omega)).symm

/-- When the new fragment is in the tree, what it covers is taken out, and
the tree shows the new file. -/
lemma dealWithOverlap_spec {fn : Nat} (h : Overlap s added g g' l1 p l2 b e stop)
    (hfn : (s.frag p).node = some fn) (hfuel : (l1 ++ p :: l2).length + 1 < fuel) :
    ∃ s' l3, dealWithOverlap fuel s p = some (0, s') ∧ FragList s' g' (l1 ++ p :: l3) (max stop e) ∧
      NodesOk s' added (l1 ++ p :: l3) ∧ s'.frag p = s.frag p := by
  have hturns : l2.length < fuel := by
    simp only [length_append, length_cons] at hfuel
    omega
  obtain ⟨s1, l3, b1, hrun, h1, hkeep, hhead⟩ := obsoleteCovered_spec fuel h hturns hfuel
  unfold dealWithOverlap
  rw [hrun]
  simp only [bind_eq_bind, bind_some]
  obtain ⟨hp, hpe⟩ := h1.frags_new
  have hlt1 := h1.end_lt
  have hlt2 := h1.stop_lt
  cases l3 with
  | nil =>
    -- everything after it was covered
    have hb := Segment.shows_nil.mp h1.right
    have hle := h1.le
    refine ⟨s1, [], if_pos rfl, ⟨h1.tree, ?_, by omega⟩, h1.nodes, hkeep⟩
    rw [show max stop e = e by omega]
    exact h1.left
  | cons x l3 =>
    have hxl : x ∈ l1 ++ p :: x :: l3 := by simp
    obtain ⟨hx, hxe⟩ := h1.frags_old mem_cons_self
    have hcov := hhead x rfl
    obtain ⟨hofs, hsize, hval, hrest⟩ := Segment.shows_cons.mp h1.right
    have hle := h1.le
    have hmax : max stop e = stop := by
      have := (h1.right.mem_range mem_cons_self).2.2
      omega
    rw [List.head?_cons, addr_some, if_neg (h1.tree.isAddr hxl).1]
    simp only [hp, hx, bind_some, hpe, hxe]
    rw [segment_ofs] at hofs
    rw [hmax]
    by_cases heq : e = (s1.frag x).ofs
    · rw [if_pos heq]
      refine ⟨s1, x :: l3, rfl, ⟨h1.tree, ?_, hlt2⟩, h1.nodes, hkeep⟩
      obtain rfl : b1 = e := by omega
      exact h1.left.join (h1.right.congr fun i hi _ => (h1.same i hi).symm)
    rw [if_neg heq]
    have hnd := h1.tree.nodup
    rw [← singleton_append, ← append_assoc,
      perm_middle.nodup_iff, nodup_cons, mem_append, not_or] at hnd
    let t : NodeFrag := { s1.frag x with
      size := sub32 ((segment s1).stop x) e, ofs := e }
    have hnodes := h1.nodes.setFrag (x := x) (f := t) rfl
    obtain ⟨raw1, hraw1, hnodes1⟩ := markFragNormal_spec hnodes hxl
    rw [frag_setFrag_self] at hraw1
    have hpx : p ≠ x := fun e => hnd.1.1 (by simp [e])
    have hcount : 0 < refCount ({ s1.setFrag x t with raw := raw1 } : Inode a)
        (l1 ++ p :: x :: l3) fn := by
      refine refCount_pos (p := p) (by simp) ?_
      show ((s1.setFrag x t).frag p).node = some fn
      rw [frag_setFrag_ne s1 t hpx, hkeep, hfn]
    obtain ⟨raw2, hraw2, hnodes2⟩ := markRefNormal_spec hnodes1 hcount
    have hother : ∀ y, y ≠ x → ({ s1.setFrag x t with raw := raw2 } : Inode a).frag y
          = s1.frag y := fun y hy => frag_setFrag_ne s1 t hy
    refine ⟨{ s1.setFrag x t with raw := raw2 }, x :: l3, ?_, ⟨h1.tree, ?_, hlt2⟩, hnodes2, ?_⟩
    · rw [hkeep, hfn]
      refine (congrArg (Option.bind · _) hraw1).trans ?_
      rw [bind_some, bind_some, hraw2, bind_some]
      rfl
    · refine Segment.Shows.join (b := e) (shows_congr h1.left
        fun y hy => hother y (fun e => hnd.1.1 (e ▸ hy))) ?_
      subst hofs
      refine shows_remainder (f := s1.frag x) ((frag_setFrag_self s1 x t).trans ?_) (by omega) hcov
        hval h1.same (shows_congr hrest fun y hy => hother y (fun e => hnd.1.2 (e ▸ hy)))
      exact congrArg (NodeFrag.mk _ · e) (sub32_eq hcov.le)
    · rw [hother p hpx, hkeep]

end

end BoardStack.Jffs2
