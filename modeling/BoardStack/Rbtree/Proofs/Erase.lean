/-
`rb_erase`: taking a node out, and rebalancing.

A node with at most one child is unlinked: its child takes its place
(`unlink_spec`). For a node with two children the code unlinks the successor
in that way and then puts it where the node was (`adopt_spec`). Either way a
black node taken out leaves a short subtree, which `__rb_erase_color`
repairs.
-/
import BoardStack.Rbtree.Proofs.EraseColor

namespace BoardStack.Rbtree

open Base List Option PtrTree Ctx

variable {a : WordSize}
variable {b c : Color} {d : Dir} {fuel : Nat} {s : Rb a} {ctx : RbCtx a}
  {l r t : RbTree a} {n p : Word a}

-- == taking one out

section

variable {s : Rb a} {ctx : RbCtx a} {d : Dir} {p : Word a} {c : Color} {t : RbTree a}

lemma toList_unlink (hnd : (ctx.plug (.branch d p c t .leaf)).toList.Nodup) :
    (ctx.plug t).toList = (ctx.plug (.branch d p c t .leaf)).toList.erase p := by
  obtain ⟨hp, -, -, -, -⟩ := nodup_branch.mp (nodup_of_plug hnd)
  have hbefore : p ∉ Ctx.before ctx := fun hm =>
    not_mem_of_nodup hnd (mem_branch.mpr (.inl rfl)) (.inl hm)
  rw [toList_plug, toList_plug, erase_append_right _ hbefore]
  congr 1
  cases d with
  | left =>
    show _ = ((t.toList ++ [p]) ++ Ctx.after ctx).erase p
    rw [append_assoc, erase_append_right _ hp]
    simp
  | right =>
    show _ = (p :: t.toList ++ Ctx.after ctx).erase p
    simp

lemma unlink_spec (h : Repr s (ctx.plug (.branch d p c t .leaf))) :
    ∃ s1 s2, rbSetParentIf s (addr t.root?) (addr ctx.parent) = some s1 ∧
      changeChild .left s1 (addr ctx.parent) p (addr t.root?) = some s2 ∧
      (∀ f ctx', ctx = f :: ctx' → s1.modify f.ptr (·.setChild f.dir (addr t.root?)) = some s2) ∧
      Repr s2 (ctx.plug t) ∧
      ∀ q, q ∉ (ctx.plug t).toList → s2.heap q = s.heap q := by
  obtain ⟨hpt, -, hpctx⟩ := h.fresh
  obtain ⟨hctx, hsub⟩ := hasTree_plug.mp h.tree
  obtain ⟨-, ht, -⟩ := hasTree_branch.mp hsub
  obtain ⟨-, -, hndt, -, -⟩ := nodup_branch.mp (nodup_of_plug h.nodup)
  have hmem : ∀ q, q ∈ t.toList → q ∈ (branch d p c t .leaf).toList :=
    fun q hq => mem_branch.mpr (.inr (.inl hq))
  have hout : ∀ q, q ∈ t.toList → ¬ Ctx.Mem q ctx :=
    fun q hq => not_mem_of_nodup h.nodup (hmem q hq)
  obtain ⟨s1, hs1, ht1, hframe1, hroot1⟩ := rbSetParentIf_spec ht h.isAddr.isLink hndt
    (fun q hq => h.addr q (mem_plug.mpr (.inl (hmem q hq))))
    ctx.parent
  have hctx1 : HasCtx rbMk s1.heap ctx (some p) := by
    rw [root?_branch] at hctx
    exact hasCtx_congr (fun q hq => hframe1 q (fun hm => hout q hm hq)) hctx
  have haddr : ∀ q, Ctx.Mem q ctx → IsAddr q := fun q hq => h.addr q (mem_plug.mpr (.inr hq))
  obtain ⟨s2, hs2, hctx2, hroot2, hframe2⟩ := changeChild_spec .left hctx1
    (by rw [hroot1, h.root, root?_plug, root?_branch])
    (fun f ctx' he => parent_fresh (t := .branch d p c t .leaf)
      (he ▸ h.nodup)) haddr h.isAddr.1 hpctx t.root?
  refine ⟨s1, s2, hs1, hs2, ?_, ⟨?_, ?_, ?_, ?_⟩, ?_⟩
  · rintro f ctx' rfl
    rw [← hs2, parent_cons, addr_some, changeChild_cons .left hctx1.1
      (haddr _ (Ctx.mem_cons.mpr (.inl rfl))) h.isAddr.1
      (fun hm => hpctx (Ctx.mem_cons.mpr (.inr (.inl hm))))]
  · rw [hroot2, root?_plug]
  · refine hasTree_plug.mpr ⟨hctx2, hasTree_congr (fun q hq => ?_) ht1⟩
    exact hframe2 q (fun he => hout q hq (mem_of_parent he))
  · rw [toList_unlink h.nodup]
    exact h.nodup.erase p
  · intro q hq
    rw [toList_unlink h.nodup] at hq
    exact h.addr q (mem_of_mem_erase hq)
  · intro q hq
    rw [hframe2 q (fun he => hq (mem_plug.mpr (.inr (mem_of_parent he)))),
      hframe1 q (fun hm => hq (mem_plug.mpr (.inl hm)))]

end

-- == one node for another

section

variable (h : Repr s (ctx.plug (.branch .left p c l r)))

include h

lemma adopt_spec {s1 : Rb a} (hframe : ∀ q, q ∈ (ctx.plug (.branch .left p c l r)).toList →
      s1.heap q = s.heap q) (hroot : s1.rbNode = s.rbNode) :
    ∃ s2 s3 s4, changeChild .left s1 (addr ctx.parent) p n = some s2 ∧
      rbSetParentIf s2 (addr l.root?) n = some s3 ∧
      rbSetParentIf s3 (addr r.root?) n = some s4 ∧
      HasCtx rbMk s4.heap ctx (some n) ∧
      s4.rbNode = addr (ctx.top (some n)) ∧
      HasTree rbMk s4.heap (some n) l ∧ HasTree rbMk s4.heap (some n) r ∧
      ∀ q, q = p ∨ q ∉ (ctx.plug (.branch .left p c l r)).toList → s4.heap q = s1.heap q := by
  obtain ⟨hpl, hpr, hpctx⟩ := h.fresh
  obtain ⟨-, -, hndl, hndr, hdisj⟩ := nodup_branch.mp (nodup_of_plug h.nodup)
  have hinl : ∀ q, q ∈ l.toList → q ∈ (branch .left p c l r).toList :=
    fun q hq => mem_branch.mpr (.inr (.inl hq))
  have hinr : ∀ q, q ∈ r.toList → q ∈ (branch .left p c l r).toList :=
    fun q hq => mem_branch.mpr (.inr (.inr hq))
  have hout : ∀ q, q ∈ (branch .left p c l r).toList → ctx.parent ≠ some q := fun q hq he =>
    not_mem_of_nodup h.nodup hq (mem_of_parent he)
  have hsub : ∀ q, q ∈ (branch .left p c l r).toList →
      q ∈ (ctx.plug (.branch .left p c l r)).toList := fun q hq => mem_plug.mpr (.inl hq)
  have haddr : ∀ q, Ctx.Mem q ctx → IsAddr q := fun q hq => h.addr q (mem_plug.mpr (.inr hq))
  have htree := hasTree_congr hframe h.tree
  obtain ⟨hctx1, hsub1⟩ := hasTree_plug.mp htree
  obtain ⟨-, hl1, hr1⟩ := hasTree_branch.mp hsub1
  obtain ⟨s2, hs2, hctx2, hroot2, hframe2⟩ := changeChild_spec .left hctx1
    (by rw [hroot, h.root, root?_plug, root?_branch])
    (fun f ctx' he => parent_fresh (t := .branch .left p c l r)
      (he ▸ h.nodup)) haddr h.isAddr.1 hpctx (some n)
  have hl2 : HasTree rbMk s2.heap (some p) l := hasTree_congr
    (fun q hq => hframe2 q (hout q (hinl q hq))) hl1
  have hr2 : HasTree rbMk s2.heap (some p) r := hasTree_congr
    (fun q hq => hframe2 q (hout q (hinr q hq))) hr1
  obtain ⟨s3, hs3, hl3, hframe3, hroot3⟩ := rbSetParentIf_spec hl2 h.isAddr.isLink hndl
    (fun q hq => h.addr q (hsub q (hinl q hq))) (some n)
  have hr3 : HasTree rbMk s3.heap (some p) r := hasTree_congr
    (fun q hq => hframe3 q (fun hm => hdisj hm hq)) hr2
  obtain ⟨s4, hs4, hr4, hframe4, hroot4⟩ := rbSetParentIf_spec hr3 h.isAddr.isLink hndr
    (fun q hq => h.addr q (hsub q (hinr q hq))) (some n)
  refine ⟨s2, s3, s4, hs2, hs3, hs4, ?_, by rw [hroot4, hroot3, hroot2], ?_, hr4, ?_⟩
  · refine hasCtx_congr (fun q hq => ?_) hctx2
    rw [hframe4 q (fun hm => not_mem_of_nodup h.nodup (hinr q hm) hq),
      hframe3 q (fun hm => not_mem_of_nodup h.nodup (hinl q hm) hq)]
  · exact hasTree_congr (fun q hq => hframe4 q (fun hm => hdisj hq hm)) hl3
  · rintro q (rfl | hq)
    · rw [hframe4 q hpr, hframe3 q hpl, hframe2 q (hout q (mem_branch.mpr (.inl rfl)))]
    · rw [hframe4 q (fun hm => hq (hsub q (hinr q hm))),
        hframe3 q (fun hm => hq (hsub q (hinl q hm))),
        hframe2 q (fun he => hq (mem_plug.mpr (.inr (mem_of_parent he))))]

lemma repr_relabel {s' : Rb a} (hn : IsAddr n)
    (hnew : n ∉ (ctx.plug (.branch .left p c l r)).toList)
    (hctx : HasCtx rbMk s'.heap ctx (some n)) (hroot : s'.rbNode = addr (ctx.top (some n)))
    (hnode : s'.heap n = some (rbMk n ctx.parent l.root? r.root? c))
    (hl : HasTree rbMk s'.heap (some n) l) (hr : HasTree rbMk s'.heap (some n) r) :
    Repr s' (ctx.plug (.branch .left n c l r)) := by
  have hmem : ∀ q, q ∈ (ctx.plug (.branch .left n c l r)).toList →
      q = n ∨ q ∈ (ctx.plug (.branch .left p c l r)).toList := by
    intro q hq
    rw [mem_plug, mem_branch] at hq ⊢
    rcases hq with (hq | hq) | hq
    · exact .inl hq
    · exact .inr (.inl (.inr hq))
    · exact .inr (.inr hq)
  refine ⟨?_, hasTree_plug.mpr ⟨hctx, hnode, hl, hr⟩, ?_, ?_⟩
  · rw [hroot, root?_plug, root?_branch]
  · have hnd := h.nodup
    rw [toList_plug_branch] at hnd hnew ⊢
    rw [perm_middle.nodup_iff, nodup_cons] at hnd ⊢
    refine ⟨fun hm => hnew ?_, hnd.2⟩
    rcases List.mem_append.mp hm with hm | hm
    · exact mem_append_left _ hm
    · exact mem_append_right _ (mem_cons_of_mem p hm)
  · intro q hq
    rcases hmem q hq with rfl | hq
    · exact hn
    · exact h.addr q hq

lemma takePlace_spec {old : RbNode a} (hl : l ≠ .leaf) (hn : IsAddr n)
    (hold : s.heap n = some old) (hnew : n ∉ (ctx.plug (.branch .left p c l r)).toList) :
    ∃ s', takePlace s p n = some s' ∧ Repr s' (ctx.plug (.branch .left n c l r)) ∧
      ∀ q, q ≠ n → (q = p ∨ q ∉ (ctx.plug (.branch .left p c l r)).toList) →
        s'.heap q = s.heap q := by
  let s1 := s.write n (rbMk n ctx.parent l.root? r.root? c)
  have hs1 : s.modify n (fun _ => rbMk p ctx.parent l.root? r.root? c) = some s1 := modify_eq hold _
  have hframe1 : ∀ q, q ∈ (ctx.plug (.branch .left p c l r)).toList → s1.heap q = s.heap q :=
    fun q hq => heap_write_ne s _ (fun e => hnew (e ▸ hq))
  obtain ⟨s2, s3, s4, hs2, hs3, hs4, hctx, hroot, hl', hr', hframe⟩ :=
    adopt_spec (n := n) h hframe1 (show s1.rbNode = s.rbNode from rfl)
  refine ⟨s4, ?_, repr_relabel h hn hnew hctx hroot ?_ hl' hr', ?_⟩
  · -- the left child is there, so the code does not test for it
    have hl0 : addr l.root? ≠ 0 := fun e => hl ((addr_eq_zero_iff
      (fun q hq => h.addr q (mem_plug.mpr (.inl (mem_branch.mpr (.inr (.inl hq))))))).mp e)
    rw [rbSetParentIf, if_neg hl0] at hs3
    have hparent : rbParent (rbMkDir .left p ctx.parent l.root? r.root? c)
        = addr ctx.parent := rbParent_mk _ _ _ _ _ h.isLink_parent
    simp only [takePlace, h.heap_eq, bind_eq_bind, bind_some, hparent]
    refine (congrArg (Option.bind · _) hs1).trans ?_
    rw [bind_some, hs2, bind_some]
    refine (congrArg (Option.bind · _) hs3).trans hs4
  · rw [hframe n (.inr hnew)]
    exact heap_write_self s n _
  · intro q hqn hq
    rw [hframe q hq, heap_write_ne s _ hqn]

/-- `rb_replace_node`: a new node takes the place of another. -/
lemma rbReplaceNode_spec {old : RbNode a} (hn : IsAddr n) (hold : s.heap n = some old)
    (hnew : n ∉ (ctx.plug (.branch .left p c l r)).toList) :
    ∃ s', rbReplaceNode s p n = some s' ∧ Repr s' (ctx.plug (.branch .left n c l r)) ∧
      ∀ q, q ≠ n → (q = p ∨ q ∉ (ctx.plug (.branch .left p c l r)).toList) →
        s'.heap q = s.heap q := by
  obtain ⟨s2, s3, s4, hs2, hs3, hs4, hctx, hroot, hl, hr, hframe⟩ :=
    adopt_spec (n := n) h (fun _ _ => rfl) rfl
  have hp4 := hframe p (.inl rfl)
  have hn4 := hframe n (.inr hnew)
  rw [h.heap_eq] at hp4
  rw [hold] at hn4
  have hnl : ∀ q, q ∈ l.toList ∨ q ∈ r.toList ∨ Ctx.Mem q ctx → q ≠ n := by
    rintro q hq rfl
    refine hnew (mem_plug.mpr ?_)
    rcases hq with hq | hq | hq
    · exact .inl (mem_branch.mpr (.inr (.inl hq)))
    · exact .inl (mem_branch.mpr (.inr (.inr hq)))
    · exact .inr hq
  let s5 := s4.write n (rbMk n ctx.parent l.root? r.root? c)
  refine ⟨s5, ?_, repr_relabel h hn hnew ?_ hroot ?_ ?_ ?_, ?_⟩
  · have hparent : rbParent (rbMkDir .left p ctx.parent l.root? r.root? c)
        = addr ctx.parent := rbParent_mk _ _ _ _ _ h.isLink_parent
    simp only [rbReplaceNode, h.heap_eq, bind_eq_bind, bind_some, hparent, hs2]
    refine (congrArg (Option.bind · _) hs3).trans ?_
    rw [bind_some]
    refine (congrArg (Option.bind · _) hs4).trans ?_
    rw [bind_some, hp4, bind_some, modify_eq hn4]
    rfl
  · exact hasCtx_congr (fun q hq => heap_write_ne s4 _ (hnl q (.inr (.inr hq)))) hctx
  · exact heap_write_self s4 n _
  · exact hasTree_congr (fun q hq => heap_write_ne s4 _ (hnl q (.inl hq))) hl
  · exact hasTree_congr (fun q hq => heap_write_ne s4 _ (hnl q (.inr (.inl hq)))) hr
  · intro q hqn hq
    rw [heap_write_ne s4 _ hqn, hframe q hq]

end

-- == rebalancing

lemma bit_eq_rbBlack_iff (c : Color) : (c.bit : Word a) = rbBlack ↔ c = .black := by
  cases c with
  | red =>
    refine ⟨fun h => ?_, fun h => by cases h⟩
    exact absurd ((bit_eq_zero_iff .black).mp h.symm) (by simp)
  | black => exact ⟨fun _ => rfl, fun _ => rfl⟩

lemma balance_unlink {m : Nat} (hctx : CtxOk ctx m)
    (h : Valid (holeColor ctx) m (.branch d p b t .leaf)) :
    (b = .red → RedBlack (ctx.plug t)) ∧ (b = .black → Short ctx t) := by
  refine ⟨?_, ?_⟩
  · rintro rfl
    obtain ⟨hc, ht, -⟩ := valid_red.mp h
    refine redBlack_iff.mpr (valid_plug_iff.mpr ⟨m, hctx, ?_⟩)
    rw [hc]
    exact ht.weaken
  rintro rfl
  obtain ⟨k, rfl, ht, -⟩ := valid_black.mp h
  refine ⟨k, hctx, ?_⟩
  cases hred : isRed t with
  | false => exact .inl ⟨rfl, ht⟩
  | true =>
    obtain ⟨q, x, y, rfl⟩ := exists_of_isRed .left hred
    obtain ⟨-, hx, hy⟩ := valid_red.mp ht
    exact .inr ⟨.left, q, x, y, rfl, hx.weaken, hy.weaken⟩

lemma eraseFinish_spec (fuel : Nat) (hfuel : ctx.length + 1 < fuel) (h : Repr s (ctx.plug t))
    (hred : b = .red → RedBlack (ctx.plug t)) (hblack : b = .black → Short ctx t) :
    ∃ s' t', eraseFinish fuel s b.bit (addr t.root?) (addr ctx.parent) = some s' ∧
      Evolves s s' (ctx.plug t) t' ∧ RedBlack t' := by
  unfold eraseFinish
  cases b with
  | red =>
    have hbit := (bit_eq_rbBlack_iff (a := a) .red).not.mpr (by simp)
    exact ⟨s, _, if_neg hbit, Evolves.refl h, hred rfl⟩
  | black =>
    rw [if_pos ((bit_eq_rbBlack_iff .black).mpr rfl)]
    exact rbEraseColor_spec fuel (by omega) (.inr hfuel) h (hblack rfl)

/-- A node was erased: a balanced tree with the others in the old order, and
nothing else written. -/
structure Erased (s s' : Rb a) (t : RbTree a) (p : Word a) (t' : RbTree a) : Prop where
  repr : Repr s' t'
  redBlack : RedBlack t'
  list : t'.toList = t.toList.erase p
  frame : ∀ q, q ∉ t.toList → s'.heap q = s.heap q

lemma eraseSingle_spec (h : Repr s (ctx.plug (.branch d p c t .leaf)))
    (hrb : RedBlack (ctx.plug (.branch d p c t .leaf))) (hfuel : ctx.length + 1 < fuel) :
    ∃ s' t', eraseSingle fuel s p (addr t.root?) = some s' ∧
      Erased s s' (ctx.plug (.branch d p c t .leaf)) p t' := by
  obtain ⟨m, hctx, hvalid⟩ := valid_plug_iff.mp (redBlack_iff.mp hrb)
  obtain ⟨hred, hblack⟩ := balance_unlink hctx hvalid
  obtain ⟨s1, s2, hs1, hs2, -, hrepr, hframe⟩ := unlink_spec h
  obtain ⟨s', t', hs', hev, hrb'⟩ := eraseFinish_spec fuel hfuel hrepr hred hblack
  have hlist := toList_unlink h.nodup
  refine ⟨s', t', ?_, hev.repr, hrb', hev.list.trans hlist, ?_⟩
  · simp only [eraseSingle, h.heap_eq, bind_eq_bind,
      bind_some, rbParent_mk d p _ _ c h.isLink_parent,
      rbColor_mk d p _ _ c h.isLink_parent, hs1, hs2, hs']
  intro q hq
  have hq' : q ∉ (ctx.plug t).toList := by
    rw [hlist]
    exact fun hm => hq (mem_of_mem_erase hm)
  rw [hev.frame q hq', hframe q hq']

-- == two children

/-- The colours around a hole, whatever the pointer of one node. -/
lemma ctxOk_relabel {o : RbTree a} (ctx2 : RbCtx a) {m : Nat} :
    CtxOk (ctx2 ++ ⟨d, p, c, o⟩ :: ctx) m → CtxOk (ctx2 ++ ⟨d, n, c, o⟩ :: ctx) m := by
  induction ctx2 generalizing m with
  | nil => cases c <;> exact id
  | cons f ctx2 ih =>
    obtain ⟨e, q, b, w⟩ := f
    cases b with
    | red =>
      rintro ⟨hw, hc, hctx⟩
      refine ⟨hw, ?_, ih hctx⟩
      cases ctx2 <;> exact hc
    | black =>
      rintro ⟨hw, hctx⟩
      exact ⟨hw, ih hctx⟩

lemma holeColor_relabel {o : RbTree a} (ctx2 : RbCtx a) :
    holeColor (ctx2 ++ ⟨d, p, c, o⟩ :: ctx) = holeColor (ctx2 ++ ⟨d, n, c, o⟩ :: ctx) := by
  cases ctx2 <;> rfl

variable {ctx2 : RbCtx a}

lemma unlinkSuccessor_spec {s' : Rb a} {child : Word a}
    (hnd : (Ctx.plug (ctx2 ++ ⟨.right, p, c, l⟩ :: ctx) t).toList.Nodup)
    (hdir : ∀ f ∈ ctx2, f.dir = .left)
    (hmod : ∀ f ctx', ctx2 ++ ⟨.right, p, c, l⟩ :: ctx = f :: ctx' →
      s.modify f.ptr (·.setChild f.dir child) = some s') :
    unlinkSuccessor s p n (addr (Ctx.parent (ctx2 ++ ⟨.right, p, c, l⟩ :: ctx))) child
      = some (addr (Ctx.parent (ctx2 ++ ⟨.right, n, c, l⟩ :: ctx)), s') := by
  unfold unlinkSuccessor
  cases ctx2 with
  | nil =>
    have hs := hmod _ _ rfl
    simp only [nil_append, parent_cons, addr_some, if_true, hs, bind_eq_bind, bind_some, pure]
  | cons g ctx2 =>
    have hs := hmod _ _ rfl
    rw [hdir g mem_cons_self] at hs
    have hne : g.ptr ≠ p := by
      rintro rfl
      exact (parent_fresh hnd).2 (Ctx.mem_append.mpr (.inr (Ctx.mem_cons.mpr (.inl rfl))))
    simp only [cons_append, parent_cons, addr_some, hne, if_false,
      hs, bind_eq_bind, bind_some, pure]

lemma toList_takePlace (hdir : ∀ f ∈ ctx2, f.dir = .left) (hnd : (ctx.plug (.branch .left p c l
      (Ctx.plug ctx2 (.branch .left n b .leaf t)))).toList.Nodup) :
    (ctx.plug (.branch .left n c l (Ctx.plug ctx2 t))).toList = (ctx.plug (.branch .left p c l
          (Ctx.plug ctx2 (.branch .left n b .leaf t)))).toList.erase p := by
  obtain ⟨rest, hrest⟩ := orient_plug hdir
  have hr : (plug ctx2 (.branch .left n b .leaf t)).toList = n :: (plug ctx2 t).toList := by
    have h1 := hrest (.branch .left n b .leaf t)
    have h2 := hrest t
    simp only [Dir.orient] at h1 h2
    rw [h1, h2]
    rfl
  rw [toList_plug_branch] at hnd ⊢
  rw [toList_plug_branch]
  rw [perm_middle.nodup_iff, nodup_cons, List.mem_append, not_or] at hnd
  rw [erase_append_right _ hnd.1.1, erase_cons_head, hr, cons_append]

lemma eraseDouble_spec (hl : l ≠ .leaf) (hr : r ≠ .leaf)
    (h : Repr s (ctx.plug (.branch .left p c l r)))
    (hrb : RedBlack (ctx.plug (.branch .left p c l r)))
    (hfuel : (ctx.plug (.branch .left p c l r)).size + 1 < fuel) :
    ∃ s' t', eraseDouble fuel s p = some s' ∧
      Erased s s' (ctx.plug (.branch .left p c l r)) p t' := by
  have hsize := length_le_size ctx (.branch .left p c l r)
  rw [size_branch] at hsize
  obtain ⟨r0, hr0⟩ : ∃ r0, r.root? = some r0 := by
    cases r with
    | leaf => exact absurd rfl hr
    | node x q e y => exact ⟨q, rfl⟩
  have hright : Repr s (plug (⟨.right, p, c, l⟩ :: ctx) r) := h
  obtain ⟨ctx2, n, b, t, rfl, hdir, hfar⟩ := rbFar_spec .left fuel hright hr0 (by omega)
  have hheap := h.heap_eq
  have hlen := length_le_size ctx2 (.branch .left n b .leaf t)
  -- the whole tree, seen from the successor
  have hplug : ∀ (q : Word a) (t : RbTree a), plug (ctx2 ++ ⟨.right, q, c, l⟩ :: ctx) t
        = ctx.plug (.branch .left q c l (plug ctx2 t)) := fun q t => plug_append ctx2 _ t
  have hsucc : Repr s (plug (ctx2 ++ ⟨.right, p, c, l⟩ :: ctx) (.branch .right n b t .leaf)) := by
    rw [hplug]
    exact h
  have hrb' : RedBlack (plug (ctx2 ++ ⟨.right, p, c, l⟩ :: ctx) (.branch .right n b t .leaf)) := by
    rw [hplug]
    exact hrb
  obtain ⟨m, hctx, hvalid⟩ := valid_plug_iff.mp (redBlack_iff.mp hrb')
  rw [holeColor_relabel (n := n) ctx2] at hvalid
  obtain ⟨hred, hblack⟩ := balance_unlink (ctxOk_relabel (n := n) ctx2 hctx) hvalid
  obtain ⟨s1, s2, hs1, -, hmod, hrepr2, hframe2⟩ := unlink_spec hsucc
  have hunlink := unlinkSuccessor_spec (n := n) hrepr2.nodup hdir hmod
  have hlist2 := toList_unlink hsucc.nodup
  have hnew : n ∉ (plug (ctx2 ++ ⟨.right, p, c, l⟩ :: ctx) t).toList := by
    rw [hlist2]
    exact hsucc.nodup.not_mem_erase
  have hn2 := hframe2 n hnew
  rw [hsucc.heap_eq] at hn2
  rw [hplug] at hrepr2 hnew
  obtain ⟨s3, hs3, hrepr3, hframe3⟩ := takePlace_spec hrepr2 hl hsucc.isAddr hn2 hnew
  rw [← hplug] at hrepr3
  obtain ⟨s', t', hs', hev, hrb''⟩ := eraseFinish_spec fuel (by
      rw [length_append, length_cons]
      omega) hrepr3 hred hblack
  have hlist := toList_takePlace hdir h.nodup
  rw [← hplug] at hlist
  refine ⟨s', t', ?_, hev.repr, hrb'', hev.list.trans hlist, ?_⟩
  · have hright0 : (rbMkDir .left p ctx.parent l.root?
        (plug ctx2 (.branch .left n b .leaf t)).root? c).rbRight = r0 :=
      (congrArg addr hr0).trans (addr_some r0)
    have hchild : ∀ par : Option (Word a), (rbMkDir .right n par t.root?
        (leaf : RbTree a).root? b).rbRight = addr t.root? := fun _ => rfl
    simp only [eraseDouble, hheap, bind_eq_bind, bind_some, hright0, hfar, hsucc.heap_eq, hchild,
      rbParent_mk .right n _ _ b hsucc.isLink_parent,
      rbColor_mk .right n _ _ b hsucc.isLink_parent, hs1, hunlink, hs3, hs']
  intro q hq
  rw [← hplug] at hrepr2
  have hqn : q ≠ n := by
    rintro rfl
    refine hq ?_
    rw [← hplug]
    exact mem_plug.mpr (.inl (mem_branch.mpr (.inl rfl)))
  have hq2 : q ∉ (plug (ctx2 ++ ⟨.right, p, c, l⟩ :: ctx) t).toList := by
    rw [hlist2, hplug]
    exact fun hm => hq (mem_of_mem_erase hm)
  have hq3 : q ∉ (plug (ctx2 ++ ⟨.right, n, c, l⟩ :: ctx) t).toList := by
    rw [hlist]
    exact fun hm => hq (mem_of_mem_erase hm)
  rw [hev.frame q hq3, hframe3 q hqn (.inr (by rwa [hplug] at hq2)), hframe2 q hq2]

lemma rbErase_spec (h : Repr s t) (hrb : RedBlack t) (hp : p ∈ t.toList)
    (hfuel : t.size + 1 < fuel) :
    ∃ s' t', rbErase fuel s p = some s' ∧ Erased s s' t p t' := by
  obtain ⟨ctx, c, l, r, rfl⟩ := exists_of_mem .left hp
  have hlen := length_le_size ctx (.branch .left p c l r)
  have hsub : ∀ q, q ∈ l.toList ∨ q ∈ r.toList → IsAddr q := fun q hq =>
    h.addr q (mem_plug.mpr (.inl (mem_branch.mpr (.inr hq))))
  have hl : addr l.root? = 0 ↔ l = .leaf := addr_eq_zero_iff fun q hq => hsub q (.inl hq)
  have hr : addr r.root? = 0 ↔ r = .leaf := addr_eq_zero_iff fun q hq => hsub q (.inr hq)
  unfold rbErase
  rw [h.heap_eq, bind_eq_bind, bind_some]
  show ∃ s' t', (if addr l.root? = 0
      then eraseSingle fuel s p (addr r.root?)
      else if addr r.root? = 0 then eraseSingle fuel s p (addr l.root?)
      else eraseDouble fuel s p) = some s' ∧ Erased s s' _ p t'
  by_cases hl0 : l = .leaf
  · rw [if_pos (hl.mpr hl0)]
    subst hl0
    have h' : Repr s (ctx.plug (.branch .right p c r .leaf)) := h
    exact eraseSingle_spec h' hrb (by omega)
  rw [if_neg (fun e => hl0 (hl.mp e))]
  by_cases hr0 : r = .leaf
  · rw [if_pos (hr.mpr hr0)]
    subst hr0
    exact eraseSingle_spec h hrb (by omega)
  · rw [if_neg (fun e => hr0 (hr.mp e))]
    exact eraseDouble_spec hl0 hr0 h hrb hfuel

end BoardStack.Rbtree
