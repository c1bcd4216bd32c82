/-
`__rb_erase_color`: the loop carries a subtree that is one black node short.

Around it everything is valid for a black height one more than it has. A red
root is coloured black and the loop ends; with a black root the sibling is
not empty, and either its black node is taken away too, which moves the
trouble one level up, or a rotation brings a black node over. A red sibling
is rotated away first; then the parent is red, and the loop ends at the
latest with the next turn.
-/
import BoardStack.Rbtree.Proofs.Insert

namespace BoardStack.Rbtree

open Base Option Bool PtrTree Ctx

variable {a : WordSize}
variable {c pc : Color} {d : Dir} {m : Nat} {s : Rb a} {ctx : RbCtx a}
  {o t x y : RbTree a} {p q : Word a}

-- == black siblings

section

variable {s : Rb a} {ctx : RbCtx a} {d : Dir} {p q w : Word a}
  {b c : Color} {t x y wx wy : RbTree a}

lemma eraseColorRotate_spec
    (h : Repr s (ctx.plug (.branch d p c t (.branch d q b x (.branch d w .red wx wy))))) :
    ∃ s', eraseColorRotate d s p q = some s' ∧ Evolves s s'
        (ctx.plug (.branch d p c t (.branch d q b x (.branch d w .red wx wy))))
        (ctx.plug (.branch d q c (.branch d p .black t x) (.branch d w .black wx wy))) := by
  have hp := h.heap_eq
  have hcolor := rbColor_mk d p t.root? (some q) c h.isLink_parent
  have hq := h.far
  obtain ⟨s1, hs1, hev1⟩ := rbSetColor_spec hq c
  rw [plug_far, plug_far] at hev1
  obtain ⟨s2, hs2, hev2⟩ := rbSetBlack_spec hev1.repr
  have hq2 := hev2.repr.far
  have ho := hq2.heap_eq
  rw [← plug_far] at hq2
  obtain ⟨s3, hs3, hev3⟩ := rbSetBlack_spec hq2
  rw [plug_far, plug_far, plug_far, plug_far] at hev3
  obtain ⟨s4, hs4, hev4⟩ := rbRotate_spec hev3.repr
  refine ⟨s4, ?_, ((hev1.trans hev2).trans hev3).trans hev4⟩
  simp only [eraseColorRotate, hp, hcolor, hs1, hs2, ho, child_far,
    root?_branch, addr_some, hs3, hs4, bind_eq_bind, bind_some]

lemma nephews_black (h : Repr s (ctx.plug (.branch d p c t (.branch d q b x y)))) :
    ∃ l r, isBlackOrNull s (rbMkDir d q (some p) x.root? y.root? b).rbLeft = some l ∧
      isBlackOrNull s (rbMkDir d q (some p) x.root? y.root? b).rbRight = some r ∧
      (l && r) = (!isRed x && !isRed y) := by
  have hxb := isBlackOrNull_eq h.far.near
  have hyb := isBlackOrNull_eq h.far.far
  cases d with
  | left => exact ⟨_, _, hxb, hyb, rfl⟩
  | right => exact ⟨_, _, hyb, hxb, Bool.and_comm _ _⟩

/-- Both nephews black: the sibling loses its black node too. -/
lemma eraseColorBlack_recolor (hx : isRed x = false) (hy : isRed y = false)
    (h : Repr s (ctx.plug (.branch d p c t (.branch d q b x y)))) :
    ∃ s', eraseColorBlack d s p q = some (some (p, addr ctx.parent), s') ∧
      Evolves s s' (ctx.plug (.branch d p c t (.branch d q b x y)))
        (ctx.plug (.branch d p c t (.branch d q .red x y))) := by
  obtain ⟨l, r, hl, hr, hlr⟩ := nephews_black h
  have hq := h.far
  have ho := hq.heap_eq
  obtain ⟨s1, hs1, hev1⟩ := rbSetRed_spec hq
  rw [plug_far, plug_far] at hev1
  refine ⟨s1, ?_, hev1⟩
  rw [hx, hy] at hlr
  simp only [eraseColorBlack, ho, parent_cons, hl, hr, hlr, hs1,
    hev1.repr.heap_eq, rbParent_mk d p _ _ c hev1.repr.isLink_parent,
    bind_eq_bind, bind_some, Bool.not_false, Bool.and_true, if_true, pure]

/-- A red nephew on the far side: one rotation. -/
lemma eraseColorBlack_far
    (h : Repr s (ctx.plug (.branch d p c t (.branch d q b x (.branch d w .red wx wy))))) :
    ∃ s', eraseColorBlack d s p q = some (none, s') ∧ Evolves s s'
        (ctx.plug (.branch d p c t (.branch d q b x (.branch d w .red wx wy))))
        (ctx.plug (.branch d q c (.branch d p .black t x) (.branch d w .black wx wy))) := by
  obtain ⟨l, r, hl, hr, hlr⟩ := nephews_black h
  have hq := h.far
  have ho := hq.heap_eq
  have hy := hq.far
  have hyb := isBlackOrNull_eq hy
  obtain ⟨s', hs', hev⟩ := eraseColorRotate_spec h
  refine ⟨s', ?_, hev⟩
  rw [isRed_branch] at hlr hyb
  simp only [eraseColorBlack, ho, parent_cons, hl, hr, hlr, child_far, hyb,
    hs', bind_eq_bind, bind_some, decide_true, Bool.not_true,
    Bool.and_false, false_eq_true, if_false, pure]

/-- A red nephew on the near side only: two rotations. -/
lemma eraseColorBlack_near (hy : isRed y = false)
    (h : Repr s (ctx.plug (.branch d p c t (.branch d q b (.branch d w .red wx wy) y)))) :
    ∃ s', eraseColorBlack d s p q = some (none, s') ∧ Evolves s s'
        (ctx.plug (.branch d p c t (.branch d q b (.branch d w .red wx wy) y)))
        (ctx.plug (.branch d w c (.branch d p .black t wx) (.branch d q .black wy y))) := by
  obtain ⟨l, r, hl, hr, hlr⟩ := nephews_black h
  have hq := h.far
  have ho := hq.heap_eq
  have hfar := hq.far
  have hyb := isBlackOrNull_eq hfar
  have hw := hq.near
  obtain ⟨s1, hs1, hev1⟩ := rbSetBlack_spec hw
  have hq1 := hev1.repr
  rw [plug_near] at hq1
  obtain ⟨s2, hs2, hev2⟩ := rbSetRed_spec hq1
  obtain ⟨s3, hs3, hev3⟩ := rbRotate_opp_spec hev2.repr
  simp only [plug_near, branch_opp] at hev1 hev2 hev3
  obtain ⟨s4, hs4, hev4⟩ := eraseColorRotate_spec hev3.repr
  refine ⟨s4, ?_, ((hev1.trans hev2).trans hev3).trans hev4⟩
  rw [isRed_branch] at hlr
  rw [root?_branch] at hl hr
  rw [hy] at hyb
  simp only [eraseColorBlack, ho, parent_cons, hl, hr, hlr, child_far,
    child_near, hyb, root?_branch, addr_some, hs1, hs2, hs3,
    hev3.repr.heap_eq, hs4, bind_eq_bind, bind_some,
    decide_true, Bool.not_true, Bool.not_false, Bool.false_and,
    false_eq_true, if_false, if_true, pure]

end

-- == balance

/-- A subtree one black node short of what is around it: a valid tree with a
black root, or a red root that may have red children. -/
def Short (ctx : RbCtx a) (t : RbTree a) : Prop :=
  ∃ m, CtxOk ctx (m + 1) ∧ ((isRed t = false ∧ Valid .black m t) ∨
      ∃ d p x y, t = .branch d p .red x y ∧ Valid .black m x ∧ Valid .black m y)

/-- A node of the old colour with two black children of the right height
fits where the old one was. -/
lemma redBlack_refill {e : Dir} (hctx : CtxOk (⟨d, p, c, o⟩ :: ctx) m)
    (hx : Valid .red m x) (hy : Valid .red m y) :
    RedBlack (ctx.plug (.branch e q c x y)) := by
  refine redBlack_iff.mpr (valid_plug_iff.mpr ?_)
  cases c with
  | red =>
    obtain ⟨-, hc, hctx⟩ := ctxOk_red.mp hctx
    exact ⟨m, hctx, valid_red.mpr ⟨hc, hx, hy⟩⟩
  | black =>
    obtain ⟨-, hctx⟩ := ctxOk_black.mp hctx
    exact ⟨m + 1, hctx, valid_black.mpr ⟨m, rfl, hx.weaken, hy.weaken⟩⟩

lemma valid_sibling (hctx : CtxOk (⟨d, p, c, o⟩ :: ctx) m) : Valid c m o := by
  cases c with
  | red => exact (ctxOk_red.mp hctx).1
  | black => exact (ctxOk_black.mp hctx).1

lemma short_up {o' : RbTree a} (hctx : CtxOk (⟨d, p, c, o⟩ :: ctx) (m + 1))
    (ht : Valid .black m t) (ho' : Valid .black m o') : Short ctx (.branch d p c t o') := by
  cases c with
  | red =>
    obtain ⟨-, -, hctx⟩ := ctxOk_red.mp hctx
    exact ⟨m, hctx, .inr ⟨d, p, t, o', rfl, ht, ho'⟩⟩
  | black =>
    obtain ⟨-, hctx⟩ := ctxOk_black.mp hctx
    refine ⟨m + 1, hctx, .inl ⟨?_, valid_black.mpr ⟨m, rfl, ht, ho'⟩⟩⟩
    rw [isRed_branch]
    rfl

/-- What a turn of the loop ends with: another short subtree, at less depth
or with a red root, or a balanced tree. -/
inductive Turn (depth : Nat) (s : Rb a) (t : RbTree a) : Option (Word a × Word a) × Rb a → Prop
  | up {s' : Rb a} {ctx : RbCtx a} {p : Word a} {t' : RbTree a}
      (hev : Evolves s s' t (ctx.plug t')) (hroot : t'.root? = some p)
      (hshort : Short ctx t') (hless : isRed t' = true ∨ ctx.length < depth) :
      Turn depth s t (some (p, addr ctx.parent), s')
  | done {s' : Rb a} {t' : RbTree a} (hev : Evolves s s' t t')
      (hrb : RedBlack t') : Turn depth s t (none, s')

lemma eraseColorBlack_turn (depth : Nat)
    (h : Repr s (ctx.plug (.branch d p c t (.branch d q .black x y))))
    (hctx : CtxOk (⟨d, p, c, .branch d q .black x y⟩ :: ctx) (m + 1))
    (ht : Valid .black m t) (hless : c = .red ∨ ctx.length < depth) :
    ∃ r, eraseColorBlack d s p q = some r ∧
      Turn depth s (ctx.plug (.branch d p c t (.branch d q .black x y)))
        r := by
  obtain ⟨k, hk, hx, hy⟩ := valid_black.mp (valid_sibling hctx)
  obtain rfl : k = m := by omega
  cases hredy : isRed y with
  | true =>
    obtain ⟨w, wx, wy, rfl⟩ := exists_of_isRed d hredy
    obtain ⟨-, hwx, hwy⟩ := valid_red.mp hy
    obtain ⟨s', hs', hev⟩ := eraseColorBlack_far h
    exact ⟨_, hs', .done hev (redBlack_refill hctx (valid_black.mpr ⟨k, rfl, ht, hx⟩)
      (valid_black.mpr ⟨k, rfl, hwx.weaken, hwy.weaken⟩))⟩
  | false =>
    cases hredx : isRed x with
    | true =>
      obtain ⟨w, wx, wy, rfl⟩ := exists_of_isRed d hredx
      obtain ⟨-, hwx, hwy⟩ := valid_red.mp hx
      obtain ⟨s', hs', hev⟩ := eraseColorBlack_near hredy h
      exact ⟨_, hs', .done hev (redBlack_refill hctx (valid_black.mpr ⟨k, rfl, ht, hwx.weaken⟩)
        (valid_black.mpr ⟨k, rfl, hwy.weaken, hy⟩))⟩
    | false =>
      obtain ⟨s', hs', hev⟩ := eraseColorBlack_recolor hredx hredy h
      have ho' : Valid .black k (.branch d q .red x y) :=
        valid_red.mpr ⟨rfl, hx.strengthen hredx, hy.strengthen hredy⟩
      refine ⟨_, hs', .up hev (root?_branch ..) (short_up hctx ht ho') ?_⟩
      rwa [isRed_branch, decide_eq_true_iff]

lemma eraseColorStep_red (h : Repr s (ctx.plug (.branch d p c t (.branch d q .red x y)))) :
    ∃ s', eraseColorStep d s p = eraseColorBlack d s' p (addr x.root?) ∧
      Evolves s s' (ctx.plug (.branch d p c t (.branch d q .red x y)))
        (ctx.plug (.branch d q .black (.branch d p .red t x) y)) := by
  have hp := h.heap_eq
  have hq := h.far
  have hred := rbIsRed_mk d q x.root? y.root? .red hq.isLink_parent
  obtain ⟨s1, hs1, hev1⟩ := rbSetBlack_spec hq
  rw [plug_far, plug_far] at hev1
  obtain ⟨s2, hs2, hev2⟩ := rbSetRed_spec hev1.repr
  obtain ⟨s3, hs3, hev3⟩ := rbRotate_spec hev2.repr
  have hp3 := hev3.repr.near
  refine ⟨s3, ?_, (hev1.trans hev2).trans hev3⟩
  simp only [eraseColorStep, hp, child_far, root?_branch, addr_some,
    hq.heap_eq, hred, hs1, hs2, hs3, hp3.heap_eq, bind_eq_bind, bind_some, decide_true, if_true]

lemma exists_branch_of_valid (d : Dir) (h : Valid pc (m + 1) o) :
    ∃ q b x y, o = .branch d q b x y := by
  cases hroot : o.root? with
  | none =>
    obtain rfl := eq_leaf_of_root? hroot
    exact absurd ((valid_leaf pc).mp h) (by omega)
  | some q => exact ⟨q, eq_branch d hroot⟩

lemma Turn.of_evolves {depth : Nat} {s' : Rb a} {t' : RbTree a}
    {r : Option (Word a × Word a) × Rb a} (hev : Evolves s s' t t')
    (h : Turn depth s' t' r) : Turn depth s t r := by
  cases h with
  | up hev' hroot hshort hless =>
    exact .up (hev.trans hev') hroot hshort hless
  | done hev' hrb => exact .done (hev.trans hev') hrb

lemma eraseColorStep_turn (h : Repr s (ctx.plug (.branch d p c t o)))
    (hctx : CtxOk (⟨d, p, c, o⟩ :: ctx) (m + 1)) (ht : Valid .black m t) :
    ∃ r, eraseColorStep d s p = some r ∧
      Turn (ctx.length + 1) s (ctx.plug (.branch d p c t o)) r := by
  obtain ⟨q, b, x, y, rfl⟩ := exists_branch_of_valid d (valid_sibling hctx)
  cases b with
  | black =>
    obtain ⟨r, hr, hturn⟩ := eraseColorBlack_turn (ctx.length + 1) h hctx ht (.inr (by omega))
    refine ⟨r, ?_, hturn⟩
    have hq := h.far
    have hred := rbIsRed_mk d q x.root? y.root? .black hq.isLink_parent
    rw [← hr]
    simp only [eraseColorStep, h.heap_eq, child_far, root?_branch,
      addr_some, hq.heap_eq, hred, bind_eq_bind, bind_some,
      reduceCtorEq, decide_false, false_eq_true, if_false]
  | red =>
    obtain ⟨rfl, hx, hy⟩ := valid_red.mp (valid_sibling hctx)
    obtain ⟨-, hctx'⟩ := ctxOk_black.mp hctx
    obtain ⟨s1, hs1, hev1⟩ := eraseColorStep_red h
    -- the new sibling was a child of a red node
    obtain ⟨z, b, zx, zy, rfl⟩ := exists_branch_of_valid d hx
    obtain rfl : b = .black := by
      have hb := hx.1 rfl
      rw [isRed_branch] at hb
      cases b with
      | red => cases hb
      | black => rfl
    have hp := hev1.repr.near
    obtain ⟨r, hr, hturn⟩ := eraseColorBlack_turn (ctx.length + 1)
      hp (ctxOk_red.mpr ⟨hx, rfl, ctxOk_black.mpr ⟨hy.weaken, hctx'⟩⟩) ht
      (.inl rfl)
    rw [root?_branch, addr_some, hr] at hs1
    exact ⟨r, hs1, hturn.of_evolves hev1⟩

-- == the loop

lemma eraseSide_eq (h : Repr s (ctx.plug (.branch d p c t o))) (ho : Valid pc (m + 1) o)
    (par : Option (Word a)) :
    (if (rbMkDir d p par t.root? o.root? c).rbLeft = addr t.root?
      then Dir.left else Dir.right) = d := by
  cases d with
  | left => exact if_pos rfl
  | right =>
    obtain ⟨q, b, x, y, rfl⟩ := exists_branch_of_valid .left ho
    have h' : Repr s (ctx.plug (.branch .left p c (.branch .left q b x y) t)) := h
    exact if_neg (fun e => sibling_ne h' (root?_branch ..) e.symm)

lemma rbEraseColor_stop
    (h : Repr s (ctx.plug t)) (hstop : isRed t = true ∨ ctx = []) (fuel : Nat) :
    rbEraseColor (fuel + 1) s (addr t.root?) (addr ctx.parent) = if addr t.root? = 0 then some s
        else rbSetBlack s (addr t.root?) := by
  have hcond : (!isRed t && addr t.root? != s.rbNode) = false := by
    rcases hstop with hred | rfl
    · rw [hred]
      rfl
    · rw [h.root, plug_nil, bne_self_eq_false, Bool.and_false]
  simp only [rbEraseColor, isBlackOrNull_eq h, bind_eq_bind,
    bind_some, hcond, false_eq_true, if_false]

lemma ne_root {f : Frame (Word a) Color} (h : Repr s (Ctx.plug (f :: ctx) t)) :
    addr t.root? ≠ s.rbNode := by
  obtain ⟨r, hr, hmem⟩ := mem_of_top f ctx t.root?
  rw [h.root, root?_plug, hr, addr_some]
  cases ht : t.root? with
  | none =>
    exact fun e => (h.addr r (mem_plug.mpr (.inr hmem))).1 e.symm
  | some q =>
    rintro rfl
    exact not_mem_of_nodup h.nodup (mem_of_root? ht) hmem

lemma rbEraseColor_succ (h : Repr s (ctx.plug (.branch d p c t o))) (ho : Valid pc (m + 1) o)
    (ht : isRed t = false) (fuel : Nat) {s' : Rb a} :
    (∀ node parent, eraseColorStep d s p = some (some (node, parent), s') →
      rbEraseColor (fuel + 1) s (addr t.root?) p = rbEraseColor fuel s' node parent) ∧
    (eraseColorStep d s p = some (none, s') → rbEraseColor (fuel + 1) s (addr t.root?) p
        = if s'.rbNode = 0 then some s' else rbSetBlack s' s'.rbNode) := by
  have hblack := h.near
  have hcond : (!isRed t && addr t.root? != s.rbNode) = true := by
    rw [ht, Bool.not_false, Bool.true_and, bne_iff_ne]
    exact ne_root hblack
  refine ⟨fun node parent hs' => ?_, fun hs' => ?_⟩
  all_goals simp only [rbEraseColor, isBlackOrNull_eq hblack, bind_eq_bind,
    bind_some, hcond, if_true, h.heap_eq, eraseSide_eq h ho, hs']

lemma rbSetBlack_root (h : Repr s t) (hrb : RedBlack t) :
    ∃ s' t', (if s.rbNode = 0 then some s else rbSetBlack s s.rbNode)
        = some s' ∧ Evolves s s' t t' ∧ RedBlack t' := by
  cases hroot : t.root? with
  | none =>
    refine ⟨s, t, if_pos ?_, Evolves.refl h, hrb⟩
    rw [h.root, hroot]
    rfl
  | some r =>
    obtain ⟨c, x, y, rfl⟩ := eq_branch .left hroot
    have hr : s.rbNode = r := by rw [h.root, hroot, addr_some]
    obtain ⟨n, hvalid⟩ := redBlack_iff.mp hrb
    have hrepr : Repr s (plug [] (.branch .left r c x y)) := h
    obtain ⟨s', hs', hev⟩ := rbSetBlack_spec hrepr
    refine ⟨s', _, ?_, hev, redBlack_iff.mpr hvalid.weaken.blacken⟩
    rw [hr, if_neg hrepr.isAddr.1, hs']

lemma rbEraseColor_spec (fuel : Nat) : ∀ {s : Rb a} {ctx : RbCtx a}
    {t : RbTree a}, 0 < fuel → isRed t = true ∨ ctx.length + 1 < fuel →
    Repr s (ctx.plug t) → Short ctx t →
    ∃ s' t', rbEraseColor fuel s (addr t.root?) (addr ctx.parent) = some s' ∧
      Evolves s s' (ctx.plug t) t' ∧ RedBlack t' := by
  induction fuel with
  | zero => intro s ctx t hpos; omega
  | succ fuel ih =>
    intro s ctx t _ hfuel h hshort
    obtain ⟨m, hctx, ⟨hred, ht⟩ | ⟨d, p, x, y, rfl, hx, hy⟩⟩ := hshort
    · rcases ctx with _ | ⟨⟨d, p, c, o⟩, ctx⟩
      · -- at the root, which is black
        rw [rbEraseColor_stop h (.inr rfl)]
        have hroot := rbSetBlack_root h (redBlack_iff.mpr ⟨m, ht.strengthen hred⟩)
        rwa [h.root] at hroot
      have ho := valid_sibling hctx
      have hlen : ctx.length + 2 < fuel + 1 := by
        rcases hfuel with hfuel | hfuel
        · simp [hred] at hfuel
        · exact hfuel
      obtain ⟨r, hr, hturn⟩ := eraseColorStep_turn h hctx ht
      rw [parent_cons, addr_some]
      cases hturn with
      | up hev hroot hshort' hless =>
        rename_i s1 ctx1 q t1
        obtain ⟨s', t', hs', hev', hrb⟩ := ih (by omega)
          (hless.imp id (fun hlt => by omega)) hev.repr hshort'
        refine ⟨s', t', ?_, hev.trans hev', hrb⟩
        rw [(rbEraseColor_succ h ho hred fuel).1 _ _ hr, ← hs', hroot, addr_some]
      | done hev hrb =>
        obtain ⟨s', t', hs', hev', hrb'⟩ := rbSetBlack_root hev.repr hrb
        refine ⟨s', t', ?_, hev.trans hev', hrb'⟩
        rw [(rbEraseColor_succ h ho hred fuel).2 hr, hs']
    · -- a red root takes the missing black node
      obtain ⟨s', hs', hev⟩ := rbSetBlack_spec h
      refine ⟨s', _, ?_, hev, redBlack_iff.mpr (valid_plug_iff.mpr
        ⟨m + 1, hctx, valid_black.mpr ⟨m, rfl, hx, hy⟩⟩)⟩
      rw [rbEraseColor_stop h (.inl (by rw [isRed_branch]; rfl)),
        root?_branch, addr_some, if_neg h.isAddr.1, hs']

end BoardStack.Rbtree
