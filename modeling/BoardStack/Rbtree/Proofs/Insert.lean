/-
`rb_insert_color`: the loop carries one red node that may have a red parent.

Around it everything is valid (`CtxOk`) and below it too, so the loop either
stops with a tree that is valid but for the colour of its root, or finds a
red parent, whose parent is black then. A red uncle moves the trouble two
levels up, a black one lets one or two rotations end it.
-/
import BoardStack.Rbtree.Proofs.Balance

namespace BoardStack.Rbtree

open Base Option List Bool PtrTree Ctx

variable {a : WordSize}
variable {c : Color} {d : Dir} {s : Rb a} {ctx : RbCtx a} {t v x y : RbTree a} {n p : Word a}

-- == one step

lemma rbRotate_opp_spec {q : Word a} {c' : Color} {z : RbTree a}
    (h : Repr s (ctx.plug (.branch d p c (.branch d q c' x y) z))) :
    ∃ s', rbRotate d.opp s p = some s' ∧
      Evolves s s' (ctx.plug (.branch d p c (.branch d q c' x y) z))
        (ctx.plug (.branch d q c' x (.branch d p c y z))) := by
  have h' : Repr s (ctx.plug (.branch d.opp p c z (.branch d.opp q c' y x))) := by
    rwa [branch_opp, branch_opp]
  obtain ⟨s', hs', hev⟩ := rbRotate_spec h'
  refine ⟨s', hs', ?_⟩
  simpa only [branch_opp] using hev

section

variable {s : Rb a} {ctx : RbCtx a} {d e : Dir} {n p g u : Word a} {x y w ux uy : RbTree a}

/-- A red uncle: recolour and go on two levels up. -/
lemma insertColorStep_uncle
    (h : Repr s (ctx.plug (.branch d g .black (.branch e p .red t w) (.branch d u .red ux uy)))) :
    ∃ s', insertColorStep d s n p g = some (g, s') ∧ Evolves s s'
        (ctx.plug (.branch d g .black (.branch e p .red t w) (.branch d u .red ux uy)))
        (ctx.plug (.branch d g .red (.branch e p .black t w) (.branch d u .black ux uy))) := by
  have hg := h.heap_eq
  have hu := h.far
  have hred := isRedNode_eq hu
  obtain ⟨s1, hs1, hev1⟩ := rbSetBlack_spec hu
  rw [plug_far, plug_far] at hev1
  have hp := hev1.repr.near
  obtain ⟨s2, hs2, hev2⟩ := rbSetBlack_spec hp
  rw [plug_near, plug_near] at hev2
  obtain ⟨s3, hs3, hev3⟩ := rbSetRed_spec hev2.repr
  refine ⟨s3, ?_, (hev1.trans hev2).trans hev3⟩
  rw [root?_branch, addr_some, isRed_branch] at hred
  simp only [insertColorStep, hg, child_far, root?_branch, addr_some,
    hred, hs1, hs2, hs3, bind_eq_bind, bind_some, decide_true, if_true, pure]

/-- A black uncle and the node on the outer side: one rotation. -/
lemma insertColorStep_outer (ht : t.root? = some n) (hv : isRed v = false)
    (h : Repr s (ctx.plug (.branch d g .black (.branch d p .red t w) v))) :
    ∃ s', insertColorStep d s n p g = some (n, s') ∧ Evolves s s'
        (ctx.plug (.branch d g .black (.branch d p .red t w) v))
        (ctx.plug (.branch d p .black t (.branch d g .red w v))) := by
  have hg := h.heap_eq
  have hu := h.far
  have hred := isRedNode_eq hu
  have hp := h.near
  have hpar := hp.heap_eq
  have hne := sibling_ne hp ht
  obtain ⟨s1, hs1, hev1⟩ := rbSetBlack_spec hp
  rw [plug_near, plug_near] at hev1
  obtain ⟨s2, hs2, hev2⟩ := rbSetRed_spec hev1.repr
  obtain ⟨s3, hs3, hev3⟩ := rbRotate_opp_spec hev2.repr
  refine ⟨s3, ?_, (hev1.trans hev2).trans hev3⟩
  rw [hv] at hred
  simp only [insertColorStep, hg, child_far, hred, hpar, hne, hs1, hs2, hs3,
    bind_eq_bind, bind_some, false_eq_true, if_false, pure]

/-- A black uncle and the node on the inner side: two rotations. -/
lemma insertColorStep_inner (hv : isRed v = false)
    (h : Repr s (ctx.plug (.branch d g .black (.branch d p .red w (.branch d n .red x y)) v))) :
    ∃ s', insertColorStep d s n p g = some (p, s') ∧ Evolves s s'
        (ctx.plug (.branch d g .black (.branch d p .red w (.branch d n .red x y)) v))
        (ctx.plug (.branch d n .black (.branch d p .red w x) (.branch d g .red y v))) := by
  have hg := h.heap_eq
  have hu := h.far
  have hred := isRedNode_eq hu
  have hp := h.near
  have hpar := hp.heap_eq
  obtain ⟨s1, hs1, hev1⟩ := rbRotate_spec hp
  obtain ⟨s2, hs2, hev2⟩ := rbSetBlack_spec hev1.repr
  rw [plug_near, plug_near] at hev1 hev2
  obtain ⟨s3, hs3, hev3⟩ := rbSetRed_spec hev2.repr
  obtain ⟨s4, hs4, hev4⟩ := rbRotate_opp_spec hev3.repr
  refine ⟨s4, ?_, ((hev1.trans hev2).trans hev3).trans hev4⟩
  rw [hv] at hred
  simp only [insertColorStep, hg, child_far, hred, hpar, root?_branch,
    addr_some, hs1, hs2, hs3, hs4, bind_eq_bind, bind_some, false_eq_true, if_false, if_true, pure]

end

-- == the loop

lemma insertColorLoop_stop (h : Repr s (ctx.plug (.branch d n c x y)))
    (hstop : ctx = [] ∨ holeColor ctx = .black) (fuel : Nat) :
    insertColorLoop (fuel + 1) s n = some s := by
  have hred : isRedNode s (addr ctx.parent) = some false := by
    cases ctx with
    | nil => exact if_pos rfl
    | cons f ctx =>
      obtain ⟨e, p, b, w⟩ := f
      obtain rfl : b = .black := by simpa [holeColor] using hstop
      rw [plug_near] at h
      have hp := isRedNode_eq h
      rwa [root?_branch, isRed_branch] at hp
  rw [insertColorLoop, h.heap_eq]
  simp only [bind_eq_bind, bind_some,
    rbParent_mk d n _ _ c h.isLink_parent, hred, false_eq_true, if_false]

lemma insertColorLoop_succ {e k : Dir} {g : Word a} {b : Color} {w u : RbTree a}
    (h : Repr s (ctx.plug (.branch d g b (.branch e p .red (.branch k n c x y) w) u)))
    (fuel : Nat) :
    insertColorLoop (fuel + 1) s n = (insertColorStep d s n p g).bind
          fun r => insertColorLoop fuel r.2 r.1 := by
  have hside := side_eq h (p := p) (by rw [root?_branch])
  have hg := h.heap_eq
  have hp := h.near
  have hred := isRedNode_eq hp
  rw [root?_branch, addr_some, isRed_branch] at hred
  have hn := hp.near
  have hnp : rbParent (rbMkDir k n (some p) x.root? y.root? c) = p :=
    rbParent_mk k n _ _ c hn.isLink_parent
  have hpg : rbParent (rbMkDir e p (some g) (some n) w.root? .red) = g :=
    rbParent_mk e p _ _ _ hp.isLink_parent
  rw [insertColorLoop, hn.heap_eq]
  simp only [bind_eq_bind, bind_some, Ctx.parent, hnp, hred,
    decide_true, if_true, hp.heap_eq, root?_branch, hpg, hg]
  simp only [root?_branch] at hside
  rw [hside]

lemma insertColorLoop_rotate {e : Dir} {g : Word a} {w : RbTree a} {m fuel : Nat}
    (ht : t.root? = some n) (hred : isRed t = true) (hv : isRed v = false) (hfuel : 1 < fuel)
    (h : Repr s (ctx.plug (.branch d g .black (.branch e p .red t w) v)))
    (hctx : CtxOk ctx (m + 1)) (hvt : Valid .black m t)
    (hvw : Valid .red m w) (hvv : Valid .black m v) :
    ∃ s' t', insertColorLoop fuel s n = some s' ∧
      Evolves s s' (ctx.plug (.branch d g .black (.branch e p .red t w) v)) t' ∧
      ∃ k, Valid .black k t' := by
  obtain ⟨fuel, rfl⟩ : ∃ k, fuel = k + 2 := ⟨fuel - 2, by omega⟩
  have hvv := hvv.strengthen hv
  obtain ⟨x, y, rfl⟩ := eq_branch_of_isRed d ht hred
  obtain ⟨-, hx, hy⟩ := valid_red.mp hvt
  rw [insertColorLoop_succ h]
  rcases Dir.eq_or_eq_opp e d with rfl | rfl
  · obtain ⟨s1, hs1, hev⟩ := insertColorStep_outer ht hv h
    rw [hs1]
    have hstop := hev.repr.near
    refine ⟨s1, _, insertColorLoop_stop hstop (.inr rfl) fuel, hev, ?_⟩
    obtain ⟨k, hk⟩ := valid_plug_iff.mpr ⟨m + 1, hctx, valid_black.mpr
      ⟨m, rfl, hvt, valid_red.mpr ⟨rfl, hvw, hvv⟩⟩⟩
    exact ⟨k, hk.weaken⟩
  rw [branch_opp] at h ⊢
  obtain ⟨s1, hs1, hev⟩ := insertColorStep_inner hv h
  rw [hs1]
  have hstop := hev.repr.near
  refine ⟨s1, _, insertColorLoop_stop hstop (.inr rfl) fuel, hev, ?_⟩
  obtain ⟨k, hk⟩ := valid_plug_iff.mpr ⟨m + 1, hctx, valid_black.mpr
    ⟨m, rfl, valid_red.mpr ⟨rfl, hvw, hx⟩, valid_red.mpr ⟨rfl, hy, hvv⟩⟩⟩
  exact ⟨k, hk.weaken⟩

/-- The loop ends, within as many turns as there are nodes above, with a tree
that is valid but for the colour of its root. -/
lemma insertColorLoop_spec (fuel : Nat) : ∀ {s : Rb a} {ctx : RbCtx a}
    {n : Word a} {t : RbTree a} {m : Nat}, ctx.length < fuel →
    t.root? = some n → isRed t = true → Repr s (ctx.plug t) →
    CtxOk ctx m → Valid .black m t →
    ∃ s' t', insertColorLoop fuel s n = some s' ∧
      Evolves s s' (ctx.plug t) t' ∧ ∃ k, Valid .black k t' := by
  induction fuel using Nat.strong_induction_on with
  | _ fuel ih =>
    intro s ctx n t m hfuel ht hred h hctx hvt
    rcases fuel with _ | fuel
    · omega
    obtain ⟨x, y, rfl⟩ := eq_branch_of_isRed .left ht hred
    rcases ctx with _ | ⟨⟨e, p, b, w⟩, ctx⟩
    · exact ⟨s, _, insertColorLoop_stop h (.inl rfl) fuel, Evolves.refl h, m, hvt⟩
    cases b with
    | black =>
      obtain ⟨k, hk⟩ := valid_plug_iff.mpr ⟨m, hctx, hvt⟩
      exact ⟨s, _, insertColorLoop_stop h (.inr rfl) fuel, Evolves.refl h, k, hk.weaken⟩
    | red =>
      obtain ⟨hw, hblack, hctx⟩ := ctxOk_red.mp hctx
      -- a red node is not the root, so there is a grandparent
      rcases ctx with _ | ⟨⟨d, g, b, v⟩, ctx⟩
      · cases hblack
      obtain rfl : b = .black := hblack
      obtain ⟨hv, hctx'⟩ := ctxOk_black.mp hctx
      rw [length_cons, length_cons] at hfuel
      cases hredv : isRed v with
      | false =>
        exact insertColorLoop_rotate ht hred hredv (by omega) h hctx' hvt hw hv
      | true =>
        obtain ⟨u, ux, uy, rfl⟩ := exists_of_isRed d hredv
        obtain ⟨-, hux, huy⟩ := valid_red.mp hv
        obtain ⟨s1, hs1, hev⟩ := insertColorStep_uncle (n := n) h
        rw [insertColorLoop_succ h, hs1]
        obtain ⟨s', t', hs', hev', hk⟩ := ih fuel (by omega) (by omega) (root?_branch ..)
          (by rw [isRed_branch]; rfl) hev.repr hctx'
          (valid_red.mpr ⟨rfl, valid_black.mpr ⟨m, rfl, hvt, hw.weaken⟩,
            valid_black.mpr ⟨m, rfl, hux.weaken, huy.weaken⟩⟩)
        exact ⟨s', t', hs', hev.trans hev', hk⟩

-- == insertion

/-- The side of the parent a hole is on; the root's link when there is no
parent. -/
def linkSide : RbCtx a → Dir
  | [] => .left
  | f :: _ => f.dir

lemma nodup_plug_new (hnd : (ctx.plug .leaf).toList.Nodup) (hnew : n ∉ (ctx.plug .leaf).toList) :
    (ctx.plug (.branch .left n .red .leaf .leaf)).toList.Nodup := by
  rw [toList_plug] at hnd hnew ⊢
  show (Ctx.before ctx ++ n :: Ctx.after ctx).Nodup
  rw [perm_middle.nodup_iff, nodup_cons]
  exact ⟨hnew, hnd⟩

lemma rbLinkNode_spec {old : RbNode a} (h : Repr s (ctx.plug .leaf))
    (hn : IsAddr n) (hold : s.heap n = some old) (hnew : n ∉ (ctx.plug .leaf).toList) :
    ∃ s', rbLinkNode s n (addr ctx.parent) (linkSide ctx) = some s' ∧
      Repr s' (ctx.plug (.branch .left n .red .leaf .leaf)) ∧
      ∀ q, q ≠ n → q ∉ (ctx.plug .leaf).toList → s'.heap q = s.heap q := by
  have hnctx : ¬ Ctx.Mem n ctx := fun hm => hnew (mem_plug.mpr (.inr hm))
  have haddr : ∀ q, q ∈ (ctx.plug (.branch .left n .red .leaf .leaf)).toList → IsAddr q := by
    intro q hq
    rcases mem_plug.mp hq with hq | hq
    · obtain rfl : q = n := by simpa [branch, PtrTree.toList] using hq
      exact hn
    · exact h.addr q (mem_plug.mpr (.inr hq))
  let s1 := s.write n ⟨addr ctx.parent, 0, 0⟩
  have hs1 : s.modify n (fun _ => ⟨addr ctx.parent, 0, 0⟩) = some s1 := modify_eq hold _
  have hctx1 : HasCtx rbMk s1.heap ctx none := hasCtx_congr
    (fun q hq => heap_write_ne s _ (fun e => hnctx (e ▸ hq)))
    (hasTree_plug.mp h.tree).1
  have hn1 : s1.heap n = some (rbMk n ctx.parent none none .red) := by
    rw [rbMk, pack_red]
    exact heap_write_self s n _
  unfold rbLinkNode
  rw [hs1]
  cases ctx with
  | nil =>
    refine ⟨{ s1 with rbNode := n }, rfl, ⟨rfl, ⟨hn1, trivial, trivial⟩,
      nodup_plug_new h.nodup hnew, haddr⟩, fun q hq _ =>
        heap_write_ne s _ hq⟩
  | cons f ctx =>
    have hf : IsAddr f.ptr := h.addr _ (Ctx.mem_plug.mpr (.inr (Ctx.mem_cons.mpr (.inl rfl))))
    have hnf : n ≠ f.ptr := fun e => hnctx (Ctx.mem_cons.mpr (.inl e))
    refine ⟨s1.write f.ptr (rbMkDir f.dir f.ptr (Ctx.parent ctx) (some n)
      f.sib.root? f.attr), ?_, ⟨?_, ?_, nodup_plug_new h.nodup hnew, haddr⟩, ?_⟩
    · show (if f.ptr = 0 then _ else s1.modify f.ptr _) = _
      rw [if_neg hf.1, modify_eq hctx1.1]
      congr 2
      exact setChild_near f.dir f.ptr _ none _ (some n) f.attr
    · show s.rbNode = _
      rw [h.root, root?_plug, root?_plug]
      rfl
    · refine hasTree_plug.mpr ⟨?_, ?_, trivial, trivial⟩
      · exact hasCtx_relink hctx1 (parent_fresh h.nodup) (some n)
      · rw [heap_write_ne s1 _ hnf]
        exact hn1
    · intro q hq hqt
      rw [heap_write_ne s1 _ (fun e => hqt (mem_plug.mpr
        (.inr (Ctx.mem_cons.mpr (.inl e))))), heap_write_ne s _ hq]

/-- `rb_insert_color` after a link: the tree is balanced again and has the
same nodes in the same order. -/
lemma rbInsertColor_spec (fuel : Nat) (hfuel : ctx.length < fuel)
    (h : Repr s (ctx.plug (.branch .left n .red .leaf .leaf))) (hrb : RedBlack (ctx.plug .leaf)) :
    ∃ s' t', rbInsertColor fuel s n = some s' ∧
      Evolves s s' (ctx.plug (.branch .left n .red .leaf .leaf)) t' ∧
      RedBlack t' := by
  obtain ⟨m, hctx, hleaf⟩ := valid_plug_iff.mp (redBlack_iff.mp hrb)
  obtain rfl : m = 0 := (valid_leaf _).mp hleaf
  have hnode : Valid .black 0 (.branch .left n .red .leaf .leaf : RbTree a) :=
    valid_red.mpr ⟨rfl, (valid_leaf _).mpr rfl, (valid_leaf _).mpr rfl⟩
  obtain ⟨s1, t1, hs1, hev1, k, hk⟩ := insertColorLoop_spec fuel hfuel rfl rfl h hctx hnode
  -- the tree is not empty, so there is a root to colour
  obtain ⟨r, hr⟩ : ∃ r, t1.root? = some r := by
    cases ht : t1 with
    | leaf =>
      have hlist := hev1.list
      rw [ht, toList_plug] at hlist
      simp [branch, PtrTree.toList] at hlist
    | node l p c r => exact ⟨p, rfl⟩
  obtain ⟨c, x, y, rfl⟩ := eq_branch .left hr
  have hrepr : Repr s1 (plug [] (.branch .left r c x y)) := hev1.repr
  obtain ⟨s2, hs2, hev2⟩ := rbSetBlack_spec hrepr
  have hroot : s1.rbNode = r := by
    rw [hev1.repr.root, root?_branch, addr_some]
  refine ⟨s2, _, ?_, hev1.trans hev2, redBlack_iff.mpr hk.blacken⟩
  rw [rbInsertColor, hs1, bind_eq_bind, bind_some, hroot, hs2]

end BoardStack.Rbtree
